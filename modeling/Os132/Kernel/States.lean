import Os132.Kernel.Reap

/-!
# The states of a process

While `ptable.lock` is free the `RUNNING` processes are exactly those in the variable `proc` of
some CPU, and of one only. A state changes along the edges of `Transition` and in no other way.
-/

namespace Os132

open Op

variable {flag : SchedFlag} {ncpu n : ℕ} {s s' : State} {c : CpuId} {lb : Label} {a : Action}
  {emb : Slot → Option (Slot × ℕ)} {ph : Slot → Phase} {p j : Slot}

/-- The changes of a process state. -/
inductive Transition : ProcState → ProcState → Prop
  | alloc : Transition .unused .embryo
  | publish : Transition .embryo .runnable
  | free : Transition .embryo .unused
  | dispatch : Transition .runnable .running
  | yield : Transition .running .runnable
  | sleep : Transition .running .sleeping
  | wakeup : Transition .sleeping .runnable
  | exit : Transition .running .zombie
  | reap : Transition .zombie .unused

/-- Every step keeps the state of a process or takes it along an edge. -/
lemma step_transition (hi : Inv s emb) (h : StepKind flag s c a s') (j : Slot) :
    (s'.proc j).state = (s.proc j).state ∨ Transition (s.proc j).state (s'.proc j).state := by
  rcases step_state hi h j with hsh | ⟨h1, h2⟩ | ⟨st, r, hp, ho, hst⟩
  · generalize (s.proc j).state = x at hsh
    generalize (s'.proc j).state = y at hsh
    cases hsh with
    | same => exact Or.inl rfl
    | wake => exact Or.inr .wakeup
    | reap => exact Or.inr .reap
    | alloc => exact Or.inr .alloc
    | free => exact Or.inr .free
    | publish => exact Or.inr .publish
  · rw [h1, h2]
    exact Or.inr .dispatch
  · obtain ⟨g, hok, -⟩ := hi.cpu c
    have hmem : st ∈ [ProcState.runnable, .sleeping, .zombie] := (hok.typed ho (by simp) (by simp)).1.2.1
    rw [hst, hi.state_of_cur hp (by rw [ho]; rfl)]
    simp only [List.mem_cons, List.not_mem_nil, or_false] at hmem
    rcases hmem with rfl | rfl | rfl
    · exact Or.inr .yield
    · exact Or.inr .sleep
    · exact Or.inr .exit

/-- While `ptable.lock` is free no process is between `RUNNING` and its switch to the scheduler. -/
lemma Inv.running_iff (hi : Inv s emb) (hl : s.lock .ptable = none) (p : Slot) :
    (s.proc p).state = .running ↔ ∃! c, (s.cpu c).proc = some p := by
  constructor
  · intro hr
    obtain ⟨c, hc⟩ := hi.run p hr
    exact ⟨c, hc, fun d hd => hi.inj d c p hd hc⟩
  · rintro ⟨c, hc, -⟩
    refine hi.state_of_cur hc ?_
    by_contra hs
    rw [Bool.not_eq_false] at hs
    rw [hi.atSched_lock hs] at hl
    simp at hl

/-- A process has a kernel stack and a page directory, which no other process has. -/
structure OwnsPages (s : State) (p : Slot) : Prop where
  pages : ∃ a b, (s.proc p).kstack = some a ∧ (s.proc p).pgdir = some b ∧ a ≠ b ∧
    s.mem.kmem a = true ∧ s.mem.kmem b = true
  own : ∀ q a, (s.proc q).state.used = true → q ≠ p → (s.proc p).kstack = some a ∨ (s.proc p).pgdir = some a →
    (s.proc q).kstack ≠ some a ∧ (s.proc q).pgdir ≠ some a

lemma Pages.owns (hg : Pages s emb) (hp : (s.proc p).state.used = true) : OwnsPages s p := by
  obtain ⟨h1, h2⟩ := hg.used p hp
  obtain ⟨a, ha⟩ := Option.ne_none_iff_exists'.mp h1
  obtain ⟨b, hb⟩ := Option.ne_none_iff_exists'.mp h2
  have oa : Owns s emb (p, true) a := ha
  have ob : Owns s emb (p, false) b := ⟨Or.inl hp, hb⟩
  refine ⟨⟨a, b, ha, hb, ?_, hg.allocated _ a oa, hg.allocated _ b ob⟩, fun q k hq hne hk => ?_⟩
  · rintro rfl
    exact absurd (hg.single _ _ a oa ob) (by simp)
  · obtain ⟨x, hx⟩ : ∃ x, Owns s emb (p, x) k := by
      rcases hk with hk | hk
      · exact ⟨true, hk⟩
      · exact ⟨false, Or.inl hp, hk⟩
    exact ⟨fun hs => hne (congrArg Prod.fst (hg.single (q, true) _ k hs hx)),
      fun hd => hne (congrArg Prod.fst (hg.single (q, false) _ k ⟨Or.inl hq, hd⟩ hx))⟩

/-- The states of the processes in a run. -/
theorem states_sound (r : KRun flag ncpu n) :
    (∀ k, k ≤ n → (r.state k).lock .ptable = none → ∀ p, ((r.state k).proc p).state = .running ↔
      ∃! c, ((r.state k).cpu c).proc = some p) ∧
    (∀ k, k ≤ n → ∀ c d p, ((r.state k).cpu c).proc = some p → ((r.state k).cpu d).proc = some p → c = d) ∧
    (∀ k, k ≤ n → ∀ p, ((r.state k).proc p).state ≠ .unused → ((r.state k).proc p).state ≠ .embryo →
      OwnsPages (r.state k) p) ∧
    ∀ k, k < n → ∀ p, ((r.state (k + 1)).proc p).state = ((r.state k).proc p).state ∨
      Transition ((r.state k).proc p).state ((r.state (k + 1)).proc p).state := by
  refine ⟨fun k hk hl p => ?_, fun k hk c d p => ?_, fun k hk p h1 h2 => ?_, fun k hk p => ?_⟩
  · obtain ⟨emb, ph, hi, -⟩ := run_good r k hk
    exact hi.running_iff hl p
  · obtain ⟨emb, ph, hi, -⟩ := run_good r k hk
    exact hi.inj c d p
  · obtain ⟨emb, ph, hi, hf, hg⟩ := run_good r k hk
    refine hg.owns ?_
    cases hs : ((r.state k).proc p).state <;> simp_all [ProcState.used]
  · obtain ⟨emb, ph, hi, -⟩ := run_good r k hk.le
    exact step_transition hi (step_kind hi (r.steps k hk)).1 p

end Os132

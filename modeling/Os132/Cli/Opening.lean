import Os132.Cli.Nest
import Os132.Lib.Run

/-!
# A nest from its `pushcli` to its last `popcli`

`pushcli` reads the flags and then disables interrupts; in between the thread may be interrupted, give
the CPU up and come back on another one. What it has read is the flag still when it goes on, because
the interrupt returns with interrupts on.
-/

namespace Os132

namespace Cli

section Threads

variable {Cpu Proc Lock : Type} {ptable : Lock} {c : Cpu} {b : Bool} {pc pc' : Pc Lock} {frames : List (Pc Lock)}
  {x x' : Thread Lock} {on : Bool → Prop}

/-- `pushcli`, called with these interrupts open, has read the flags and not yet disabled interrupts; it may
itself be interrupted. -/
def Thread.Opening (frames : List (Pc Lock)) (x : Thread Lock) : Prop :=
  ∃ eflags lk, .read eflags lk :: frames <:+ x.pc :: x.frames

/-- The place of a thread and of its open interrupts around a step. `on b` tells that `pushcli` reads `b`. -/
inductive Places (on : Bool → Prop) (x x' : Thread Lock) : Prop where
  | stay (pc : x'.pc = x.pc) (frames : x'.frames = x.frames) (depth : x'.depth = x.depth)
  | go (frames : x'.frames = x.frames)
      (read : ∀ eflags lk, x'.pc = .read eflags lk → x.pc = .idle ∧ on eflags ∧ x'.depth = x.depth)
  | trap (frames : x'.frames = x.pc :: x.frames)
  | iret (frames : x.frames = x'.pc :: x'.frames) (depth : x'.depth = 0)

/-- `pushcli`, called with these interrupts open, has read `b` and is in no nest when it goes on. -/
structure Pending (frames : List (Pc Lock)) (b : Bool) (x : Thread Lock) : Prop where
  place : ∃ lk, .read b lk :: frames <:+ x.pc :: x.frames
  depth : x.frames = frames → x.depth = 0

lemma not_suffix_self : ¬ pc :: frames <:+ frames := by
  intro h
  have := h.length_le
  rw [List.length_cons] at this
  omega

lemma suffix_cons_self (h : pc :: frames <:+ pc' :: frames) : pc' = pc := by
  rcases List.suffix_cons_iff.mp h with h | h
  · injection h with h
    exact h.symm
  · exact absurd h not_suffix_self

lemma Pending.step (hp : Pending frames b x) (hx : Places on x x') (ho : x'.Opening frames) :
    Pending frames b x' := by
  obtain ⟨⟨lk, hsuf⟩, hd⟩ := hp
  obtain ⟨e, lk', hsuf'⟩ := ho
  cases hx with
  | stay pc hf depth =>
    refine ⟨⟨lk, by rwa [pc, hf]⟩, fun he => ?_⟩
    rw [depth]
    exact hd (by rw [← hf, he])
  | go hf read =>
    have hne : x.frames ≠ frames := by
      rintro rfl
      rw [hf] at hsuf'
      have hidle := (read e lk' (suffix_cons_self hsuf')).1
      rw [hidle] at hsuf
      simpa using suffix_cons_self hsuf
    refine ⟨⟨lk, ?_⟩, fun he => absurd (hf.symm.trans he) hne⟩
    rcases List.suffix_cons_iff.mp hsuf with heq | hsuf
    · injection heq with _ heq
      exact absurd heq.symm hne
    · rw [hf]
      exact hsuf.trans (List.suffix_cons _ _)
  | trap hf =>
    refine ⟨⟨lk, ?_⟩, fun he => ?_⟩
    · rw [hf]
      exact hsuf.trans (List.suffix_cons _ _)
    · rw [← he, hf] at hsuf
      exact absurd hsuf not_suffix_self
  | iret hf depth =>
    refine ⟨⟨lk, ?_⟩, fun _ => depth⟩
    rw [hf] at hsuf
    rcases List.suffix_cons_iff.mp hsuf with heq | hsuf
    · injection heq with _ heq
      rw [← heq] at hsuf'
      exact absurd hsuf' not_suffix_self
    · exact hsuf

variable [DecidableEq Cpu] [DecidableEq Lock] {op : Op Lock} {k k' : CpuState Cpu Proc} {holder holder' : Lock → Option Cpu}

lemma turn_places (h : Fine ptable c holder k x) (ht : turn ptable c holder k x op = some (k', x', holder')) :
    Places (k.flag = ·) x x' := by
  cases op with
  | flag b =>
    simp only [turn, Option.ite_none_right_eq_some, Option.some.injEq, Prod.mk.injEq] at ht
    obtain ⟨-, -, rfl, -⟩ := ht
    exact .stay rfl rfl rfl
  | trap =>
    simp only [turn, Option.ite_none_right_eq_some, Option.some.injEq, Prod.mk.injEq] at ht
    obtain ⟨-, -, rfl, -⟩ := ht
    exact .trap rfl
  | iret =>
    simp only [turn, Option.ite_none_right_eq_some] at ht
    obtain ⟨hb, ht⟩ := ht
    cases hfr : x.frames with
    | nil => simp [hfr] at ht
    | cons pc frames =>
      simp only [hfr, Option.some.injEq, Prod.mk.injEq] at ht
      obtain ⟨-, rfl, -⟩ := ht
      refine .iret hfr ?_
      rcases h.frames pc (by simp [hfr]) with rfl | ⟨lk, rfl⟩ <;> simp [Thread.depth, hb.2.1, hb.2.2, Pc.extra]
  | pushcli =>
    simp only [turn, Option.ite_none_right_eq_some, Option.some.injEq, Prod.mk.injEq] at ht
    obtain ⟨hpc, -, rfl, -⟩ := ht
    refine .go rfl ?_
    rintro e lk he
    injection he with he
    exact ⟨hpc, he, by simp [Thread.depth, Pc.extra, hpc]⟩
  | acquire lk =>
    simp only [turn, Option.ite_none_right_eq_some, Option.some.injEq, Prod.mk.injEq] at ht
    obtain ⟨hpc, -, rfl, -⟩ := ht
    refine .go rfl ?_
    rintro e lk' he
    injection he with he
    exact ⟨hpc, he, by simp [Thread.depth, Pc.extra, hpc]⟩
  | cli =>
    cases hpc : x.pc with
    | read e o =>
      cases o with
      | none =>
        simp only [turn, hpc, Option.some.injEq, Prod.mk.injEq] at ht
        obtain ⟨-, rfl, -⟩ := ht
        exact .go rfl (by simp)
      | some lk =>
        simp only [turn, hpc, Option.some.injEq, Prod.mk.injEq] at ht
        obtain ⟨-, rfl, -⟩ := ht
        exact .go rfl (by simp)
    | _ => simp [turn, hpc] at ht
  | take =>
    cases hpc : x.pc with
    | spin lk =>
      simp only [turn, hpc, Option.ite_none_right_eq_some, Option.some.injEq, Prod.mk.injEq] at ht
      obtain ⟨-, -, rfl, -⟩ := ht
      exact .go rfl (by simp)
    | _ => simp [turn, hpc] at ht
  | release lk =>
    simp only [turn, Option.ite_none_right_eq_some] at ht
    obtain ⟨⟨hpc, -⟩, ht⟩ := ht
    split_ifs at ht <;> simp only [Option.some.injEq, Prod.mk.injEq] at ht
    · obtain ⟨-, rfl, -⟩ := ht
      exact .go rfl (by simp)
    · obtain ⟨-, rfl, -⟩ := ht
      exact .stay rfl rfl rfl
  | popcli =>
    rw [turn] at ht
    split_ifs at ht with hpc hpush <;> simp only [Option.some.injEq, Prod.mk.injEq] at ht
    · obtain ⟨-, rfl, -⟩ := ht
      exact .go rfl (by simp)
    · obtain ⟨-, rfl, -⟩ := ht
      exact .go rfl (by simp [hpush.1])
  | leave =>
    simp only [turn, Option.ite_none_right_eq_some, Option.some.injEq, Prod.mk.injEq] at ht
    obtain ⟨-, -, rfl, -⟩ := ht
    exact .go rfl (by simp)
  | restore =>
    simp only [turn, Option.ite_none_right_eq_some, Option.some.injEq, Prod.mk.injEq] at ht
    obtain ⟨-, -, rfl, -⟩ := ht
    exact .go rfl (by simp)

end Threads

section Runs

variable {Cpu Proc Lock : Type} [DecidableEq Cpu] [DecidableEq Proc] [DecidableEq Lock] {ptable : Lock}
  {c : Cpu} {p : Proc} {s s' : State Cpu Proc Lock} {l : Cpu × Label Proc Lock}

lemma step_places (h : Inv ptable s) (hs : Cli.step ptable l s = some s') (p : Proc) :
    Places (fun b => ∃ c, (s.cpu c).curr = .proc p ∧ (s.cpu c).flag = b) (s.thread (.proc p)) (s'.thread (.proc p)) := by
  rcases step_of h hs p with hu | ⟨op, k, x, holder, hp, ht, rfl⟩ | ⟨hp, -, -, hthread⟩ | ⟨-, -, hthread⟩
  · rw [hu.thread]
    exact .stay rfl rfl rfl
  · have hthread : (s.put l.1 k x holder).thread (.proc p) = x := by simp [State.put, hp]
    rw [hthread, ← on_eq hp]
    cases turn_places (h.fine l.1) ht with
    | stay pc frames depth => exact .stay pc frames depth
    | go frames read =>
      refine .go frames fun e lk he => ?_
      obtain ⟨hidle, hflag, hd⟩ := read e lk he
      exact ⟨hidle, ⟨l.1, hp, hflag⟩, hd⟩
    | trap frames => exact .trap frames
    | iret frames depth => exact .iret frames depth
  · rw [hthread, ← on_eq hp]
    exact .go rfl (by simp)
  · rw [hthread]
    exact .stay rfl rfl rfl

/-- The reading of the flags. -/
lemma pending_of_opening (h : Inv ptable s) (hc : (s.cpu c).curr = .proc p) (hd : (s.thread (.proc p)).depth = 0)
    (hs : Cli.step ptable l s = some s') (ho : (s'.thread (.proc p)).Opening (s.thread (.proc p)).frames) :
    Pending (s.thread (.proc p)).frames (s.cpu c).flag (s'.thread (.proc p)) := by
  obtain ⟨e, lk, hsuf⟩ := ho
  have hread := (h.fine c).read e lk
  rw [on_eq hc] at hread
  cases step_places h hs p with
  | stay pc frames depth =>
    have hsame := hsuf
    rw [pc, frames] at hsame
    rw [hread (suffix_cons_self hsame)]
    exact ⟨⟨lk, hsuf⟩, fun _ => depth.trans hd⟩
  | go frames read =>
    have hsame := hsuf
    rw [frames] at hsame
    obtain ⟨-, ⟨d, hdp, hflag⟩, hd'⟩ := read e lk (suffix_cons_self hsame)
    rw [h.alone c d p hc hdp, hflag]
    exact ⟨⟨lk, hsuf⟩, fun _ => hd'.trans hd⟩
  | trap frames =>
    have hsame := hsuf
    rw [frames, List.suffix_cons_iff] at hsame
    have hpc := suffix_cons_self (hsame.resolve_left (by simp))
    rw [hread hpc]
    refine ⟨⟨lk, hsuf⟩, fun he => ?_⟩
    rw [frames] at he
    simp at he
  | iret frames depth =>
    rw [← frames] at hsuf
    exact absurd hsuf not_suffix_self

/-- In every run: `ncli` is never negative, interrupts are off wherever it is positive, and nothing panics but
`acquire` of a lock the CPU holds. When a process in no nest calls `pushcli` at the time `a`, disables
interrupts at `i` and closes the nest at `j`, the interrupt flag of its CPU is what it was at `a`. -/
theorem cli_sound {n : ℕ}
    (r : Lts.Run (Init ptable) (Cli.step ptable : Cpu × Label Proc Lock → State Cpu Proc Lock → _) n) :
    (∀ k, k ≤ n → ∀ c, 0 ≤ ((r.state k).cpu c).ncli ∧
      (0 < ((r.state k).cpu c).ncli → ((r.state k).cpu c).flag = false) ∧
      (((r.state k).cpu c).panic = none ∨ ((r.state k).cpu c).panic = some .acquire)) ∧
    ∀ a i j c d p frames, a < i → i < j → j < n →
      ((r.state a).cpu c).curr = .proc p → ((r.state a).thread (.proc p)).depth = 0 →
      ((r.state a).thread (.proc p)).frames = frames →
      (∀ k, a < k → k ≤ i → ((r.state k).thread (.proc p)).Opening frames) →
      ((r.state i).thread (.proc p)).frames = frames →
      (∀ k, i < k → k ≤ j → 0 < ((r.state k).thread (.proc p)).depth) →
      ((r.state (j + 1)).thread (.proc p)).depth = 0 → ((r.state (j + 1)).cpu d).curr = .proc p →
      ((r.state (j + 1)).cpu d).flag = ((r.state a).cpu c).flag := by
  have hinv := r.invariant (P := Inv ptable) (fun s hs => Inv.init hs) (fun s l s' h hs => h.step hs)
  constructor
  · intro k hk c
    have hfine := (hinv k hk).fine c
    have hncli := hfine.ncli
    exact ⟨by omega, fun hpos => hfine.off (by omega), hfine.panic⟩
  · rintro a i j c d p frames hai hij hj hc ha rfl hopening hi hopen hend hd
    have hread := pending_of_opening (hinv a (by omega)) hc ha (r.steps a (by omega)) (hopening (a + 1) (by omega) (by omega))
    have hpending := r.preserved (a := a + 1) (b := i) (P := fun k s =>
        Pending ((r.state a).thread (.proc p)).frames ((r.state a).cpu c).flag (s.thread (.proc p)) ∧ Inv ptable s ∧ k ≤ i)
      (by omega) ⟨hread, hinv (a + 1) (by omega), by omega⟩
      (fun k hak hki hk hs => ⟨hk.1.step (step_places hk.2.1 hs p) (hopening (k + 1) (by omega) (by omega)),
        hk.2.1.step hs, by omega⟩)
    obtain ⟨⟨lk, hplace⟩, hdepth⟩ := (hpending i (by omega) (by omega)).1
    have hnow := hinv i (by omega)
    obtain ⟨e, he⟩ := hnow.on_of_depth (hdepth hi)
    rw [hi] at hplace
    have hflag := (hnow.fine e).read _ lk (by rw [on_eq he]; exact suffix_cons_self hplace)
    rw [flag_of_nest r hij hj he (hdepth hi) hopen hend hd, hflag]

end Runs

/-- Two CPUs, one process, one lock, with interrupts on. -/
def twoCpus : State Bool Unit Unit where
  cpu c := ⟨0, false, true, .sched c, none⟩
  holder _ := none
  thread t := ⟨if t.isProc then [()] else [], 0, .idle, [], false, false⟩

/-- The process opens a nest on one CPU, gives the CPU up, and closes the nest on the other. -/
def migrates : List (Bool × Label Unit Unit) :=
  [(true, .run (.acquire ())), (true, .run .cli), (true, .run .take), (true, .dispatch ()),
    (true, .run (.release ())), (true, .run .popcli), (true, .run (.acquire ())), (true, .run .cli),
    (true, .run .take), (true, .run .leave), (true, .sched), (true, .run (.release ())), (true, .run .popcli),
    (false, .run (.flag false)), (false, .run (.acquire ())), (false, .run .cli), (false, .run .take),
    (false, .dispatch ()), (false, .run .restore), (false, .run (.release ())), (false, .run .popcli)]

/-- At time 6 the process is in no nest on one CPU, at time 7 it has called `pushcli`, then it is in a nest. -/
def crosses (k : ℕ) (s : State Bool Unit Unit) (_ : Bool × Label Unit Unit) : Bool :=
  let x := s.thread (.proc ())
  (k ≠ 6 ∨ (s.cpu true).curr = .proc () ∧ x.depth = 0 ∧ x.frames = []) ∧
    (k ≠ 7 ∨ x.pc = .read true (some ()) ∧ x.frames = []) ∧ (k ≤ 7 ∨ 0 < x.depth)

lemma init_twoCpus : Init () twoCpus :=
  ⟨fun _ => ⟨rfl, rfl, rfl⟩, fun _ => rfl, fun _ => ⟨⟨rfl, rfl, rfl⟩, rfl⟩, fun _ => ⟨⟨rfl, rfl, rfl⟩, rfl, rfl⟩⟩

/-- The machine of two CPUs, one process and one lock. -/
def smallStep : Bool × Label Unit Unit → State Bool Unit Unit → Option (State Bool Unit Unit) := step ()

instance : Inhabited (Bool × Label Unit Unit) := ⟨(true, .sched)⟩

theorem cli_sound_migrates : ∃ r : Lts.Run (Init ()) smallStep migrates.length,
    ((r.state 21).cpu false).flag = ((r.state 6).cpu true).flag := by
  obtain ⟨r, hq, hp⟩ := Lts.exists_run_of_check smallStep migrates crosses
    (fun s => (s.cpu false).curr = .proc () ∧ (s.thread (.proc ())).depth = 0) init_twoCpus (by decide +kernel)
  have hend := of_decide_eq_true hp
  have hopen : ∀ k, 7 < k → k ≤ 20 → 0 < ((r.state k).thread (.proc ())).depth := by
    intro k h1 h2
    have hk := of_decide_eq_true (hq k (Nat.lt_succ_of_le h2))
    exact hk.2.2.resolve_left (by omega)
  obtain ⟨hcurr, hdepth, hframes⟩ := (of_decide_eq_true (hq 6 (by decide))).1.resolve_left (by simp)
  obtain ⟨hpc, hframes'⟩ := (of_decide_eq_true (hq 7 (by decide))).2.1.resolve_left (by simp)
  have hopening : ∀ k, 6 < k → k ≤ 7 → ((r.state k).thread (.proc ())).Opening [] := by
    intro k h1 h2
    obtain rfl : k = 7 := by omega
    exact ⟨true, some (), by rw [hpc, hframes']⟩
  exact ⟨r, (cli_sound r).2 6 7 20 true false () [] (by decide) (by decide) (by decide) hcurr hdepth hframes hopening
    hframes' hopen hend.2 hend.1⟩

end Cli

end Os132

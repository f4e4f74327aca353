import Os132.Kernel.Family
import Os132.Kernel.Pages

/-!
# Every zombie is reaped once

A zombie keeps its pid and its two pages until its parent, which may have become `init`, reaps it
in a call of `wait` or `wait2`. No process sleeps in such a call while it has a zombie.
-/

namespace Os132

open Op

variable {flag : SchedFlag} {ncpu n : ℕ} {s s' : State} {c : CpuId} {lb : Label}
  {emb : Slot → Option (Slot × ℕ)} {ph : Slot → Phase} {r : List Op} {p i z : Slot}

/-- The step reaps zombie `z` in a call of `wait` or `wait2` by process `i`: it returns the pid,
empties the record and frees the two pages. -/
structure Reaps (s : State) (lb : Label) (s' : State) (i z : Slot) : Prop where
  self : (s.cpu lb.cpu).proc = some i
  child : s.ZombieOf i z
  call : ∃ two rest, s.ops lb.cpu = .wait two :: rest ∧
    s'.ops lb.cpu = release .ptable :: store (.eax (s.proc z).pid) :: rest
  record : s'.proc z = (s.proc z).reap
  pages : ∀ k, s'.mem.kmem k = if (s.proc z).kstack = some k ∨ (s.proc z).pgdir = some k then false else s.mem.kmem k

/-- What `wait` needs of a zombie is left in place by a step that does not reap it. -/
def Kept (s s' : State) (z : Slot) : Prop :=
  (s'.proc z).state = .zombie ∧ (s'.proc z).pid = (s.proc z).pid ∧ (s'.proc z).kstack = (s.proc z).kstack ∧
    (s'.proc z).pgdir = (s.proc z).pgdir

lemma reaps_of_wait (hi : Inv s emb) (hf : Fam s ph) (h : step flag ncpu lb s = some s') {two : Bool}
    (ho : s.ops lb.cpu = .wait two :: r) (hc : (s.cpu lb.cpu).proc = some i)
    (hz : s.proc.find (Proc.isZombieOf i) = some z) : Reaps s lb s' i z := by
  obtain ⟨hpar, hst⟩ := Table.find_zombie hz
  have hne : z ≠ i := (hf.parent z i hpar).2
  obtain ⟨ch, hx⟩ := step_self h (hi.ie_of_lock (hi.lock_of_guarded ho rfl)) ho
  simp only [execOp, act, hc, Option.map_some, hz, Option.some.injEq] at hx
  subst hx
  refine ⟨hc, ⟨hst, hpar⟩, ⟨two, r, ho, ?_⟩, ?_, fun k => rfl⟩
  · exact (threadStep_setOps s lb.cpu _ _).ops
  · cases two <;> simp [State.proc, Table.set_of_ne _ _ hne]

/-- A zombie stays as it is until it is reaped. -/
lemma zombie_step (hi : Inv s emb) (hf : Fam s ph) (h : step flag ncpu lb s = some s')
    (hz : (s.proc z).state = .zombie) : Kept s s' z ∨ ∃ i, Reaps s lb s' i z := by
  obtain ⟨hk, -⟩ := step_kind hi h
  have hrec := step_rec hk z
  have hemb : ∀ {op k r}, s.ops lb.cpu = op :: r → (∀ g : Sig, op.pre g → g.emb = some (z, k)) →
      (∀ lk, op ≠ spin lk) → op ≠ Op.sched → False := by
    intro op k r ho hop h1 h2
    obtain ⟨p, -, he⟩ := hi.emb_of_ops ho hop h1 h2
    simp [(hi.fork p z k he).state] at hz
  generalize hp' : s'.proc z = p' at hrec
  unfold Kept
  rw [hp']
  cases hrec with
  | same => exact Or.inl ⟨hz, rfl, rfl, rfl⟩
  | leave st r ho hc => simp [hi.state_of_cur hc (by rw [ho]; rfl)] at hz
  | visit _ _ _ _ _ _ hr => simp [hz] at hr
  | visitRun _ _ _ _ _ _ hr => simp [hz] at hr
  | choose _ _ hr => simp [hz] at hr
  | act op r ch p' ho ha hst hc =>
    generalize hp : s.proc z = p at hc
    rw [hp] at hz
    cases hc with
    | store | np | late => exact Or.inl (by simp [hz])
    | same | parent | adopt | report => exact Or.inl ⟨hz, rfl, rfl, rfl⟩
    | leave st hop => exact absurd hop (hst st)
    | wake _ hs | adoptWake _ _ _ hs => simp [hz] at hs
    | kill => exact Or.inl (by simp [Proc.kill, hz])
    | alloc _ hj => simp [← hp, Table.find_unused hj] at hz
    | kstack v hop =>
      subst hop
      exact (hemb ho (fun _ hg => hg.2) (by simp) (by simp)).elim
    | pgdir v hop =>
      subst hop
      exact (hemb ho (fun _ hg => hg.2) (by simp) (by simp)).elim
    | freeKstack hop =>
      subst hop
      exact (hemb ho (fun _ hg => hg.2) (by simp) (by simp)).elim
    | free hop =>
      subst hop
      exact (hemb ho (fun _ hg => hg.2) (by simp) (by simp)).elim
    | publish hop =>
      subst hop
      exact (hemb ho (fun _ hg => hg.2) (by simp) (by simp)).elim
    | reap two i hop hc hj => exact Or.inr ⟨i, reaps_of_wait hi hf h (hop ▸ ho) hc hj⟩
    | reapReport hop hc hj => exact Or.inr ⟨z, reaps_of_wait hi hf h (hop ▸ ho) hc hj⟩

/-- The invariants of the process table together. -/
def Good (s : State) : Prop := ∃ emb ph, Inv s emb ∧ Fam s ph ∧ Pages s emb

lemma Good.step (hg : Good s) (h : step flag ncpu lb s = some s') : Good s' := by
  obtain ⟨emb, ph, hi, hf, hp⟩ := hg
  obtain ⟨ph', hf'⟩ := hf.step hi h
  exact ⟨embStep s lb emb, ph', hi.step_inv h, hf', hp.step hi h⟩

lemma Boot.good (h : Boot s) : Good s := ⟨_, _, h.inv, h.fam, h.pages⟩

theorem run_good (r : KRun flag ncpu n) : ∀ k, k ≤ n → Good (r.state k) :=
  r.invariant (fun _ h => h.good) fun _ _ _ hg h => hg.step h

/-- A process that sleeps in `wait` or `wait2` sleeps on its own record. -/
lemma Fam.waits (hf : Fam s ph) {two : Bool} (hs : (s.proc p).state = .sleeping)
    (hk : s.kstk p = store (.chan none) :: .wait two :: r) : s.Waits p := by
  have hruns := hf.runs p (by simp [hs, ProcState.alive])
  rw [hk] at hruns
  obtain ⟨y, hy, hr⟩ := runs_cons hruns (by simp [Op.stops])
  obtain ⟨y', hy', -⟩ := runs_cons hr (by simp [Op.stops])
  refine ⟨hs, (hf.chan p).mpr ?_⟩
  cases hx : ph p with
  | own | slept => simp
  | calm ex | tidy ex =>
    rw [hx] at hy
    obtain rfl : Phase.tidy ex = y := by simpa [Op.next, Op.calmly] using hy
    simp [Op.next] at hy'
  | found | woke | orphaned | dead => simp [hx, Op.next] at hy

/-- What a run guarantees about zombies. -/
structure ReapSound (r : KRun flag ncpu n) : Prop where
  /-- A zombie stays as it is until one step reaps it. Another step can reap the slot only after
  another process has exited in it. -/
  once : ∀ a b z, a ≤ b → b ≤ n → ((r.state a).proc z).state = .zombie → ((r.state b).proc z).state ≠ .zombie →
    ∃ x, a ≤ x ∧ x < b ∧ (∀ y, a ≤ y → y < x → Kept (r.state y) (r.state (y + 1)) z) ∧
      (∃ i, Reaps (r.state x) (r.label x) (r.state (x + 1)) i z) ∧
      ∀ y i, a ≤ y → y < b → Reaps (r.state y) (r.label y) (r.state (y + 1)) i z → y ≠ x →
        ∃ w, x < w ∧ w < y ∧ ((r.state w).proc z).state = .running ∧ ((r.state (w + 1)).proc z).state = .zombie
  /-- A call of `wait` or `wait2` by a process with a zombie reaps one. -/
  reaps : ∀ k c ch two rest i z, k < n → r.label k = ⟨c, .exec ch⟩ → (r.state k).ops c = .wait two :: rest →
    ((r.state k).cpu c).proc = some i → (r.state k).ZombieOf i z → ∃ z', Reaps (r.state k) (r.label k) (r.state (k + 1)) i z'
  /-- A zombie has a parent, which is not a zombie itself. -/
  parent : ∀ k z, k ≤ n → ((r.state k).proc z).state = .zombie →
    ∃ i, ((r.state k).proc z).parent = some i ∧ ((r.state k).proc i).state.alive = true
  /-- The parent of a zombie changes to `init` only, when the parent exits. -/
  adopted : ∀ k z i, k < n → (r.state k).ZombieOf i z → ((r.state (k + 1)).proc z).state = .zombie →
    ((r.state (k + 1)).proc z).parent = some i ∨ ((r.state (k + 1)).proc z).parent = some initproc ∧
      ((r.state k).cpu (r.label k).cpu).proc = some i ∧ ∃ rest, (r.state k).ops (r.label k).cpu = reparent :: rest
  /-- A zombie has its two pages for itself. -/
  pages : ∀ k z, k ≤ n → ((r.state k).proc z).state = .zombie →
    ∃ a b, ((r.state k).proc z).kstack = some a ∧ ((r.state k).proc z).pgdir = some b ∧ a ≠ b ∧
      (r.state k).mem.kmem a = true ∧ (r.state k).mem.kmem b = true ∧
      ∀ j, j ≠ z → ((r.state k).proc j).kstack ≠ some a ∧ ((r.state k).proc j).kstack ≠ some b ∧
        (((r.state k).proc j).state.used = true → ((r.state k).proc j).pgdir ≠ some a ∧ ((r.state k).proc j).pgdir ≠ some b)
  /-- The pages of a zombie are freed by the step that reaps it and by no other. -/
  freed : ∀ k z a, k < n → ((r.state k).proc z).state = .zombie →
    ((r.state k).proc z).kstack = some a ∨ ((r.state k).proc z).pgdir = some a →
    ((r.state (k + 1)).mem.kmem a = false ↔ ∃ i, Reaps (r.state k) (r.label k) (r.state (k + 1)) i z)
  /-- No process sleeps in `wait` or `wait2` while it has a zombie. -/
  sleeper : ∀ k p z two rest, k ≤ n → ((r.state k).proc p).state = .sleeping →
    (r.state k).kstk p = store (.chan none) :: .wait two :: rest → ¬ (r.state k).ZombieOf p z

lemma Reaps.unused (h : Reaps s lb s' i z) : (s'.proc z).state = .unused := by
  rw [h.record]
  rfl

lemma zombie_of_exit (hi : Inv s emb) (h : step flag ncpu lb s = some s') (hz : (s.proc z).state ≠ .zombie)
    (hz' : (s'.proc z).state = .zombie) : (s.proc z).state = .running := by
  rcases zombie_origin hi (step_kind hi h).1 hz' with h | ⟨r, hc, ho⟩
  · exact absurd h hz
  · exact hi.state_of_cur hc (by rw [ho]; rfl)

/-- The last step before a zombie is one of an `exit` or finds the zombie in place. -/
lemma exists_exit (r : KRun flag ncpu n) {a b : ℕ} (hab : a ≤ b) (hb : b ≤ n)
    (ha : ((r.state a).proc z).state ≠ .zombie) (hz : ((r.state b).proc z).state = .zombie) :
    ∃ w, a ≤ w ∧ w < b ∧ ((r.state w).proc z).state = .running ∧ ((r.state (w + 1)).proc z).state = .zombie := by
  induction b, hab using Nat.le_induction with
  | base => exact absurd hz ha
  | succ b hab ih =>
    by_cases hzb : ((r.state b).proc z).state = .zombie
    · obtain ⟨w, h1, h2, h3⟩ := ih (by omega) hzb
      exact ⟨w, h1, by omega, h3⟩
    · obtain ⟨emb, ph, hi, -⟩ := run_good r b (by omega)
      exact ⟨b, hab, by omega, zombie_of_exit hi (r.steps b (by omega)) hzb hz, hz⟩

/-- The first step at which a slot is no longer a zombie reaps it. -/
lemma exists_reaps (r : KRun flag ncpu n) {b : ℕ} (hb : b ≤ n) (hz : ((r.state b).proc z).state ≠ .zombie)
    (d a : ℕ) (hab : a + d = b) (ha : ((r.state a).proc z).state = .zombie) :
    ∃ x, a ≤ x ∧ x < b ∧ (∀ y, a ≤ y → y < x → Kept (r.state y) (r.state (y + 1)) z) ∧
      ∃ i, Reaps (r.state x) (r.label x) (r.state (x + 1)) i z := by
  induction d generalizing a with
  | zero =>
    obtain rfl : a = b := hab
    exact absurd ha hz
  | succ d ih =>
    obtain ⟨emb, ph, hi, hf, -⟩ := run_good r a (by omega)
    rcases zombie_step hi hf (r.steps a (by omega)) ha with hkept | hreaps
    · obtain ⟨x, hax, hxb, hall, hx⟩ := ih (a + 1) (by omega) hkept.1
      refine ⟨x, by omega, hxb, fun y hay hyx => ?_, hx⟩
      rcases Nat.eq_or_lt_of_le hay with rfl | hlt
      · exact hkept
      · exact hall y (by omega) hyx
    · exact ⟨a, le_rfl, by omega, fun y h1 h2 => absurd h1 (by omega), hreaps⟩

theorem zombie_reaped_once (r : KRun flag ncpu n) : ReapSound r where
  once a b z hab hb ha hz := by
    obtain ⟨x, hax, hxb, hkept, hx⟩ := exists_reaps r hb hz (b - a) a (by omega) ha
    refine ⟨x, hax, hxb, hkept, hx, fun y i hay hyb hy hne => ?_⟩
    obtain ⟨i', hx'⟩ := hx
    have hxy : x < y := by
      by_contra hle
      have h1 := (hkept y hay (by omega)).1
      rw [hy.unused] at h1
      simp at h1
    obtain ⟨w, h1, h2, h3⟩ := exists_exit r (show x + 1 ≤ y by omega) (by omega)
      (by rw [hx'.unused]; simp) hy.child.1
    exact ⟨w, by omega, h2, h3⟩
  reaps k c ch two rest i z hk hl ho hc hz := by
    obtain ⟨emb, ph, hi, hf, -⟩ := run_good r k hk.le
    cases hfind : (r.state k).proc.find (Proc.isZombieOf i) with
    | none =>
      have := Table.find_none hfind z
      simp [Proc.isZombieOf, hz.1, hz.2] at this
    | some z' => exact ⟨z', reaps_of_wait hi hf (r.steps k hk) (by rw [hl]; exact ho) (by rw [hl]; exact hc) hfind⟩
  parent k z hk hz := by
    obtain ⟨emb, ph, hi, hf, -⟩ := run_good r k hk
    have hne : z ≠ initproc := by
      rintro rfl
      have := hf.init.1
      simp [hz, ProcState.alive] at this
    obtain ⟨i, hi'⟩ := Option.ne_none_iff_exists'.mp (hf.child z (by simp [hz, ProcState.used]) hne)
    exact ⟨i, hi', (hf.parent z i hi').1⟩
  adopted k z i hk hz hz' := by
    obtain ⟨emb, ph, hi, hf, -⟩ := run_good r k hk.le
    cases step_parent (step_kind hi (r.steps k hk)).1 z with
    | same heq => exact Or.inl (heq.trans hz.2)
    | fork r' j ho => exact absurd ((hi.embryo_of_forkParent ho).symm.trans hz.1) (by simp)
    | adopt rest j ho hc hj heq =>
      obtain rfl := Option.some.inj (hj.symm.trans hz.2)
      exact Or.inr ⟨heq, hc, rest, ho⟩
    | reap _ _ _ _ _ _ _ hst => exact absurd (hst.symm.trans hz') (by simp)
  pages k z hk hz := by
    obtain ⟨emb, ph, hi, hf, hp⟩ := run_good r k hk
    have hzu : ((r.state k).proc z).state.used = true := by simp [hz, ProcState.used]
    obtain ⟨h1, h2⟩ := hp.used z hzu
    obtain ⟨a, ha⟩ := Option.ne_none_iff_exists'.mp h1
    obtain ⟨b, hb⟩ := Option.ne_none_iff_exists'.mp h2
    have oa : Owns (r.state k) emb (z, true) a := ha
    have ob : Owns (r.state k) emb (z, false) b := ⟨Or.inl hzu, hb⟩
    refine ⟨a, b, ha, hb, ?_, hp.allocated _ a oa, hp.allocated _ b ob, fun j hj => ⟨?_, ?_, fun hju => ⟨?_, ?_⟩⟩⟩
    · rintro rfl
      exact absurd (hp.single _ _ a oa ob) (by simp)
    · exact fun h => hj (congrArg Prod.fst (hp.single (j, true) (z, true) a h oa))
    · exact fun h => hj (congrArg Prod.fst (hp.single (j, true) (z, false) b h ob))
    · exact fun h => hj (congrArg Prod.fst (hp.single (j, false) (z, true) a ⟨Or.inl hju, h⟩ oa))
    · exact fun h => hj (congrArg Prod.fst (hp.single (j, false) (z, false) b ⟨Or.inl hju, h⟩ ob))
  freed k z a hk hz ha := by
    obtain ⟨emb, ph, hi, hf, hp⟩ := run_good r k hk.le
    constructor
    · intro hfree
      rcases zombie_step hi hf (r.steps k hk) hz with hkept | h
      · have hp' := hp.step hi (r.steps k hk)
        have hown : ∃ b, Owns (r.state (k + 1)) (embStep (r.state k) (r.label k) emb) (z, b) a := by
          rcases ha with ha | ha
          · exact ⟨true, hkept.2.2.1.trans ha⟩
          · exact ⟨false, Or.inl (by simp [hkept.1, ProcState.used]), hkept.2.2.2.trans ha⟩
        obtain ⟨b, hb⟩ := hown
        rw [hp'.allocated _ a hb] at hfree
        simp at hfree
      · exact h
    · rintro ⟨i, h⟩
      rw [h.pages, if_pos ha]
  sleeper k p z two rest hk hs hkstk hz := by
    obtain ⟨emb, ph, hi, hf, -⟩ := run_good r k hk
    exact hf.reaped p z hz (hf.waits hs hkstk)

end Os132

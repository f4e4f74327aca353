import Os132.Kernel.Pointers

/-!
# The passes of the only CPU

On one CPU nothing happens between the beginning of a scan and the choice after it. So what a scan keeps
from visit to visit holds of the table when the scheduler chooses. `S` is what it keeps, `N` what the local
variables keep between passes.
-/

namespace Os132

open Op

variable {flag : SchedFlag} {s s' : State} {c : CpuId} {lb : Label} {emb : Slot → Option (Slot × ℕ)} {op : Op}
  {r : List Op} {l : SchedLocals} {tbl : Table} {i : ℕ} {p : Slot} {N N' : SchedLocals → Prop}
  {S S' : Table → ℕ → SchedLocals → Prop}

/-- The scheduler of CPU `c` switches to `p`. -/
def Dispatches (s s' : State) (c : CpuId) (p : Slot) : Prop := (s.cpu c).proc = none ∧ (s'.cpu c).proc = some p

/-- What a scan keeps. -/
structure Keeps (flag : SchedFlag) (N : SchedLocals → Prop) (S : Table → ℕ → SchedLocals → Prop) : Prop where
  top : ∀ tbl l now, N l → S tbl 0 { l.top with currentime := now }
  now : ∀ tbl l now, S tbl 0 l → S tbl 0 { l with currentime := now }
  visit : ∀ tbl i l, S tbl i l → S (visit flag l tbl).2.1 (i + 1) (visit flag l tbl).1

/-- Where the thread of the scheduler is. -/
inductive Round (N : SchedLocals → Prop) (S : Table → ℕ → SchedLocals → Prop) (s : State) (c : CpuId) : Prop
  | between (h : Ahead [schedTop] (s.cpu c).ops) (hN : N (s.cpu c).loc)
  | before (rest : List Op) (hrest : rest = schedPass.drop 1 ∨ rest = schedPass.drop 4) (hp : (s.cpu c).proc = none)
      (h : Ahead rest (s.cpu c).ops) (hs : ∀ tbl, S tbl 0 (s.cpu c).loc)
  | scan (i : ℕ) (hi : i ≤ NPROC) (ho : (s.cpu c).ops = scan i :: schedPass.drop 5) (hp : (s.cpu c).proc = none)
      (hs : S s.proc i (s.cpu c).loc)
  | choose (ho : (s.cpu c).ops = schedPass.drop 5) (hp : (s.cpu c).proc = none) (hs : S s.proc NPROC (s.cpu c).loc)

/-- A choice, with what the scan has left to it. -/
structure Chooses (flag : SchedFlag) (S : Table → ℕ → SchedLocals → Prop) (s s' : State) (c : CpuId) : Prop where
  here : ∃ rest, s.ops c = Op.choose :: rest
  scanned : S s.proc NPROC (s.cpu c).loc
  ops : Ahead [schedTop] (s'.cpu c).ops
  loc : (s'.cpu c).loc = (s.cpu c).loc.pick flag s.proc
  proc : (s'.cpu c).proc = (s.cpu c).loc.chosen flag s.proc
  running : ∀ p, (s.cpu c).loc.chosen flag s.proc = some p → (s'.proc p).state = .running

lemma choose_cases {ch : Choice} (hp : (s.cpu c).proc = none)
    (h : execOp flag c ch r s Op.choose = some s') : (s'.cpu c).ops = r ∧
      (s'.cpu c).loc = (s.cpu c).loc.pick flag s.proc ∧ (s'.cpu c).proc = (s.cpu c).loc.chosen flag s.proc ∧
      ∀ p, (s.cpu c).loc.chosen flag s.proc = some p → (s'.proc p).state = .running := by
  simp only [execOp] at h
  obtain rfl := Option.some.inj h
  cases hch : (s.cpu c).loc.chosen flag s.proc with
  | none => simp [State.scanned, State.setOps_self, hp]
  | some j => simp [State.scanned, State.dispatch, State.setOps_self, hp, State.proc]

lemma scan_cases {ch : Choice} (hf : flag ≠ .rr) (hp : (s.cpu c).proc = none)
    (h : execOp flag c ch r s (Op.scan i) = some s') :
    (s'.cpu c).proc = none ∧
    (i < NPROC ∧ (s'.cpu c).ops = Op.scan (i + 1) :: r ∧ (s'.cpu c).loc = (visit flag (s.cpu c).loc s.proc).1 ∧
        s'.proc = (visit flag (s.cpu c).loc s.proc).2.1 ∨
      ¬ i < NPROC ∧ (s'.cpu c).ops = r ∧ (s'.cpu c).loc = (s.cpu c).loc ∧ s'.proc = s.proc) := by
  simp only [execOp] at h
  by_cases hlt : i < NPROC
  · simp only [if_pos hlt, visit_stays hf, Bool.false_eq_true, if_false,
      Option.some.injEq] at h
    subst h
    refine ⟨?_, Or.inl ⟨hlt, ?_, ?_, rfl⟩⟩
    · simp [State.scanned, State.setOps_self, hp]
    · simp [State.scanned, State.setOps_self, hp]
    · simp [State.scanned]
  · rw [if_neg hlt] at h
    obtain rfl := Option.some.inj h
    refine ⟨?_, Or.inr ⟨hlt, ?_, ?_, ?_⟩⟩
    · simp [State.setOps_self, hp]
    · simp [State.setOps_self, hp]
    · simp [State.setOps_self]
    · simp [State.proc]

/-- One step of the scan, from any place of the pass. -/
lemma Round.scanned {ch : Choice} (hf : flag ≠ .rr) (hk : Keeps flag N S) (hp : (s.cpu c).proc = none)
    (hs : S s.proc i (s.cpu c).loc) (hi : i ≤ NPROC)
    (h : execOp flag c ch (schedPass.drop 5) s (Op.scan i) = some s') :
    Round N S s' c ∧ (s'.cpu c).proc = none := by
  obtain ⟨hp', ⟨hlt, hops, hloc, hproc⟩ | ⟨hlt, hops, hloc, hproc⟩⟩ := scan_cases hf hp h
  · refine ⟨.scan (i + 1) (by omega) hops hp' ?_, hp'⟩
    rw [hloc, hproc]
    exact hk.visit _ _ _ hs
  · obtain rfl : i = NPROC := by omega
    refine ⟨.choose hops hp' ?_, hp'⟩
    rw [hloc, hproc]
    exact hs

/-- A step in which nothing of the scheduler's own happens. -/
structure Quiet (s s' : State) (c : CpuId) : Prop where
  hold : ∀ l, (∀ o ∈ l.head?, o.ofScheduler = true) → Ahead l (s.cpu c).ops → Ahead l (s'.cpu c).ops
  loc : (s'.cpu c).loc = (s.cpu c).loc
  idle : (s.cpu c).proc = none → (s'.cpu c).proc = none

/-- What the scheduler does between its choice and its next scan. -/
lemma SchedMove.quiet (hm : SchedMove flag s c lb s') : Quiet s s' c ∨
    (∃ r, (s.cpu c).ops = schedTop :: r ∧ (s'.cpu c).ops = schedPass ∧ (s'.cpu c).loc = (s.cpu c).loc.top ∧
      (s'.cpu c).proc = none) ∨
    (∃ r now, (s.cpu c).ops = schedTicks :: r ∧ (s'.cpu c).ops = r ∧
      (s'.cpu c).loc = { (s.cpu c).loc with currentime := now } ∧ (s'.cpu c).proc = none) ∨
    ∃ op r, (s.cpu c).ops = op :: r ∧ op.switches = true := by
  cases hm with
  | away hp hops hloc => exact Or.inl ⟨fun l _ ha => hops ▸ ha, hloc, fun h => absurd h hp⟩
  | irq e he hie hp' hops hloc => exact Or.inl ⟨fun l _ ha => hops ▸ ha.append he, hloc, fun _ => hp'⟩
  | next op r e ho hop he hp' hops hloc =>
    refine Or.inl ⟨fun l hl ha => ?_, hloc, fun _ => hp'⟩
    rw [ho] at ha
    exact hops ▸ (ha.next hop hl).append he
  | halt hcpu hm => exact Or.inl ⟨fun l _ ha => by rwa [hcpu], by rw [hcpu], fun h => by rwa [hcpu]⟩
  | top r ho hp' hops hloc => exact Or.inr (Or.inl ⟨r, ho, hops, hloc, hp'⟩)
  | ticks r now ho hp' hops hloc => exact Or.inr (Or.inr (Or.inl ⟨r, now, ho, hops, hloc, hp'⟩))
  | visit i r ho => exact Or.inr (Or.inr (Or.inr ⟨_, r, ho, rfl⟩))
  | stop i r hi ho => exact Or.inr (Or.inr (Or.inr ⟨_, r, ho, rfl⟩))
  | choose r ho => exact Or.inr (Or.inr (Or.inr ⟨_, r, ho, rfl⟩))

lemma ofScheduler_of_switches (h : op.switches = true) : op.ofScheduler = true := by
  unfold Op.switches at h
  split at h
  · rfl
  · rfl
  · cases h

/-- A scheduler that waits for its next pass. -/
lemma Round.wait (hk : Keeps flag N S) (hm : SchedMove flag s c lb s') (ha : Ahead [schedTop] (s.cpu c).ops)
    (hN : N (s.cpu c).loc) : Round N S s' c ∧ ((s.cpu c).proc = none → (s'.cpu c).proc = none) := by
  rcases hm.quiet with hq | ⟨r, ho, hops, hloc, hp'⟩ | ⟨r, now, ho, -⟩ | ⟨op, r, ho, hop⟩
  · exact ⟨.between (hq.hold _ (by simp [Op.ofScheduler]) ha) (by rwa [hq.loc]), hq.idle⟩
  · refine ⟨.before _ (Or.inl rfl) hp' ?_ ?_, fun _ => hp'⟩
    · rw [hops]
      exact ⟨[acquire .tickslock], by simp [Op.ofScheduler], rfl⟩
    · intro tbl
      rw [hloc]
      exact hk.top tbl (s.cpu c).loc (s.cpu c).loc.top.currentime hN
  · rw [ho] at ha
    exact absurd (ha.head rfl) (by simp)
  · rw [ho] at ha
    rw [← (List.cons.inj (ha.head (ofScheduler_of_switches hop))).1] at hop
    simp [Op.switches] at hop

/-- A scheduler on its way to the scan. -/
lemma Round.approach {rest : List Op} (hf : flag ≠ .rr) (hk : Keeps flag N S) (hm : SchedMove flag s c lb s')
    (hrest : rest = schedPass.drop 1 ∨ rest = schedPass.drop 4) (hp : (s.cpu c).proc = none)
    (ha : Ahead rest (s.cpu c).ops) (hs : ∀ tbl, S tbl 0 (s.cpu c).loc)
    (hexec : ∀ r, (s.cpu c).ops = Op.scan 0 :: r → ∃ ch, execOp flag c ch r s (Op.scan 0) = some s') :
    Round N S s' c ∧ ((s.cpu c).proc = none → (s'.cpu c).proc = none) := by
  have hown : ∀ o ∈ rest.head?, o.ofScheduler = true := by
    rcases hrest with rfl | rfl <;> simp [schedPass, Op.ofScheduler]
  rcases hm.quiet with hq | ⟨r, ho, -⟩ | ⟨r, now, ho, hops, hloc, hp'⟩ | ⟨op, r, ho, hop⟩
  · refine ⟨.before rest hrest (hq.idle hp) (hq.hold rest hown ha) fun tbl => ?_, hq.idle⟩
    rw [hq.loc]
    exact hs tbl
  · rw [ho] at ha
    have heq := ha.head rfl
    rcases hrest with rfl | rfl <;> simp [schedPass] at heq
  · rw [ho] at ha
    have heq := ha.head rfl
    have hr : r = schedPass.drop 2 := by
      rcases hrest with rfl | rfl
      · exact (List.cons.inj heq).2.symm
      · simp [schedPass] at heq
    refine ⟨.before _ (Or.inr rfl) hp' ?_ fun tbl => ?_, fun _ => hp'⟩
    · rw [hops, hr]
      exact ⟨[release .tickslock, acquire .ptable], by simp [Op.ofScheduler], rfl⟩
    · rw [hloc]
      exact hk.now tbl _ now (hs tbl)
  · rw [ho] at ha
    have heq := ha.head (ofScheduler_of_switches hop)
    rcases hrest with rfl | rfl
    · rw [← (List.cons.inj heq).1] at hop
      simp [Op.switches] at hop
    · obtain ⟨rfl, rfl⟩ := List.cons.inj heq
      obtain ⟨ch, hscan⟩ := hexec _ ho
      obtain ⟨hR', hp'⟩ := Round.scanned hf hk hp (hs s.proc) (Nat.zero_le _) hscan
      exact ⟨hR', fun _ => hp'⟩

lemma exec_of_switches (hi : Inv s emb) (h : step flag 1 lb s = some s') (hc : lb.cpu = c) (hp : (s.cpu c).proc = none)
    (ho : (s.cpu c).ops = op :: r) (hop : op.switches = true) : ∃ ch, execOp flag c ch r s op = some s' := by
  subst hc
  have hops : s.ops lb.cpu = op :: r := (ops_of_none hp).trans ho
  exact step_self h (hi.ie_of_lock (hi.scanning hops hop).1) hops

/-- A step keeps the place of the scheduler, or is its choice. -/
theorem Round.step (hi : Inv s emb) (hf : flag ≠ .rr) (hk : Keeps flag N S) (hR : Round N S s 0)
    (h : step flag 1 lb s = some s') :
    Round N S s' 0 ∧ ((s.cpu 0).proc = none → (s'.cpu 0).proc = none) ∨ Chooses flag S s s' 0 := by
  have hcpu : lb.cpu = 0 := by
    unfold Os132.step at h
    split_ifs at h with hno
    exact Nat.lt_one_iff.mp (Nat.lt_of_not_le fun hle => hno (Or.inr hle))
  have hmove := step_move hi hf h
  rw [hcpu] at hmove
  cases hR with
  | between ha hN => exact Or.inl (Round.wait hk hmove ha hN)
  | before rest hrest hp ha hs =>
    exact Or.inl (Round.approach hf hk hmove hrest hp ha hs fun r ho => exec_of_switches hi h hcpu hp ho rfl)
  | scan i hle ho hp hs =>
    obtain ⟨ch, hexec⟩ := exec_of_switches hi h hcpu hp ho rfl
    obtain ⟨hR', hp'⟩ := Round.scanned hf hk hp hs hle hexec
    exact Or.inl ⟨hR', fun _ => hp'⟩
  | choose ho hp hs =>
    obtain ⟨ch, hexec⟩ := exec_of_switches hi h hcpu hp ho rfl
    obtain ⟨hops, hloc, hproc, hrun⟩ := choose_cases hp hexec
    refine Or.inr ⟨⟨schedPass.drop 6, (ops_of_none hp).trans ho⟩, hs, ?_, hloc, hproc, hrun⟩
    rw [hops]
    exact ⟨[release .ptable], by simp [Op.ofScheduler], rfl⟩

lemma Chooses.of_dispatches
    (hR : Round N S s' 0 ∧ ((s.cpu 0).proc = none → (s'.cpu 0).proc = none) ∨ Chooses flag S s s' 0)
    (hd : Dispatches s s' 0 p) : Chooses flag S s s' 0 ∧ (s.cpu 0).loc.chosen flag s.proc = some p := by
  rcases hR with ⟨-, hidle⟩ | hc
  · have := hidle hd.1
    rw [hd.2] at this
    cases this
  · exact ⟨hc, by rw [← hc.proc, hd.2]⟩

lemma Chooses.round (h : Chooses flag S s s' c) (hN : N' ((s.cpu c).loc.pick flag s.proc)) : Round N' S' s' c :=
  .between h.ops (by rwa [h.loc])

lemma chosen_runnable (h : l.chosen flag tbl = some p) : (tbl p).state = .runnable := by
  unfold SchedLocals.chosen at h
  split_ifs at h
  exact (runnableAt_some h).2

variable {n : ℕ}

/-- The passes of a run whose choices keep `N`. -/
lemma round_run (r : KRun flag 1 n) (hf : flag ≠ .rr) (hk : Keeps flag N S) (h0 : ∀ s, Boot s → N (s.cpu 0).loc)
    (hpick : ∀ tbl l, S tbl NPROC l → N (l.pick flag tbl)) : ∀ k, k ≤ n → Round N S (r.state k) 0 := by
  intro k hk'
  induction k with
  | zero =>
    refine .between ⟨[], by simp, ?_⟩ (h0 _ r.starts)
    rw [r.starts.ops 0]
    rfl
  | succ k ih =>
    obtain ⟨emb, hi⟩ := run_inv r k (by omega)
    rcases (ih (by omega)).step hi hf hk (r.steps k (by omega)) with ⟨hR, -⟩ | hc
    · exact hR
    · exact hc.round (hpick _ _ hc.scanned)

end Os132

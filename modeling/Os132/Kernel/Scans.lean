import Os132.Kernel.Pointers

/-!
# What the scans of a CPU are fed

A scan finds every process that stays `RUNNABLE` while it lasts. The pointers that `scheduler` reads after a scan are
therefore assigned if the table is not empty of such processes, or was not in an earlier scan; and `head` stays in
the table as long as the last slot was never used.
-/

namespace Os132

open Op

variable {flag : SchedFlag} {ncpu n : ℕ} {s s' : State} {c : CpuId} {lb : Label} {emb : Slot → Option (Slot × ℕ)}
  {l l' : SchedLocals} {tbl : Table} {q : Past} {u u' : Prop} {i j : Slot}

/-- How many slots the scan of CPU `c` has looked at, if it is in a scan or at its end. -/
def State.looked (s : State) (c : CpuId) : Option ℕ :=
  match s.ops c with
  | scan i :: _ => some (min i NPROC)
  | choose :: _ => some NPROC
  | _ => none

/-- Process `j` has been in a class in every state since the scan of CPU `c` began. -/
def Stays (r : StartupRun flag ncpu n) (c : CpuId) (k : ℕ) (j : Slot) : Prop :=
  ∀ m ≤ k, (∀ m', m ≤ m' → m' ≤ k → (r.state m').state.looked c ≠ none) → (r.state m).state.proc.classed flag j = true

/-- At step `k` CPU `c` is at the end of a scan during which some process stayed `RUNNABLE`, under `_3Q` in one of the
three classes. -/
def Fed (r : StartupRun flag ncpu n) (c : CpuId) (k : ℕ) : Prop :=
  (∃ rest, (r.state k).state.ops c = choose :: rest) ∧ ∃ j, Stays r c k j

/-- The last slot of the table. -/
def lastSlot : Slot := ⟨63, by decide⟩

/-- The process in the last slot has been `RUNNABLE`. -/
def LastUsed (r : StartupRun flag ncpu n) (k : ℕ) : Prop := ∃ m ≤ k, ((r.state m).state.proc lastSlot).state = .runnable

/-- CPU `c` comes to the end of a scan only if that scan or an earlier one was fed; and, under `_3Q`, if not that one, only
as long as the last slot has not been used. -/
def ScansFed (r : StartupRun flag ncpu n) (c : CpuId) (k : ℕ) : Prop :=
  (∃ rest, (r.state k).state.ops c = choose :: rest) → Fed r c k ∨ (∃ b < k, Fed r c b) ∧ (flag = .q3 → ¬ LastUsed r k)

/-! ### What a scan finds -/

/-- The scan of CPU `c` has looked at `v` slots, and found those that stayed. -/
def Seen (r : StartupRun flag ncpu n) (c : CpuId) (k : ℕ) : Prop :=
  ∀ v, (r.state k).state.looked c = some v → ∃ start, (v < NPROC → ((r.state k).state.cpu c).loc.slot = slotAt start v) ∧
    ∀ j, Stays r c k j → ∀ i < v, slotAt start i = j → (past r c k).now = true

lemma looked_of_ops {s s' : State} (h : s'.ops c = s.ops c) : s'.looked c = s.looked c := by
  unfold State.looked
  rw [h]

lemma looked_own {v : ℕ} (h : s.looked c = some v) : ∃ op r, s.ops c = op :: r ∧ op.ofScheduler = true := by
  unfold State.looked at h
  split at h
  · exact ⟨_, _, ‹_›, rfl⟩
  · exact ⟨_, _, ‹_›, rfl⟩
  · cases h

lemma Stays.prev {r : StartupRun flag ncpu n} {k : ℕ} (h : Stays r c (k + 1) j) (hk : (r.state (k + 1)).state.looked c ≠ none) :
    Stays r c k j := by
  intro m hm hall
  refine h m (by omega) fun m' hm' hle => ?_
  by_cases heq : m' = k + 1
  · rw [heq]
    exact hk
  · exact hall m' hm' (by omega)

lemma Seen.same {r : StartupRun flag ncpu n} {k : ℕ} (h : Seen r c k)
    (hl : (r.state (k + 1)).state.looked c = (r.state k).state.looked c)
    (hloc : ((r.state (k + 1)).state.cpu c).loc = ((r.state k).state.cpu c).loc) (hp : past r c (k + 1) = past r c k) :
    Seen r c (k + 1) := by
  intro v hv
  obtain ⟨start, hslot, hseen⟩ := h v (hl ▸ hv)
  refine ⟨start, by rw [hloc]; exact hslot, fun j hj i hi heq => ?_⟩
  rw [hp]
  exact hseen j (hj.prev (by rw [hv]; simp)) i hi heq

lemma Tracks.idle (ht : Tracks flag s c q) (hp : (s.cpu c).proc ≠ none) {op : Op} {r : List Op}
    (ho : (s.cpu c).ops = op :: r) (hop : op.ofScheduler = true) : op = schedTop := by
  cases ht.stage with
  | between ha hl =>
    rw [ho] at ha
    exact (List.cons.inj (ha.head hop)).1.symm
  | pass hpn => exact absurd hpn hp

/-- After an operation that is not the scheduler's own a scan can only begin. -/
lemma Tracks.after (ht : Tracks flag s c q) {op o : Op} {r e r' : List Op} (ho : (s.cpu c).ops = op :: r)
    (hop : op.ofScheduler = false) (he : ∀ o ∈ e, o.ofScheduler = false) (hr : e ++ r = o :: r') (hown : o.ofScheduler = true) :
    o = schedTop ∨ o = schedTicks ∨ o = scan 0 := by
  have hahead (x : List Op) (hx : ∀ o ∈ x.head?, o.ofScheduler = true) (ha : Ahead x (s.cpu c).ops) : x = o :: r' := by
    rw [ho] at ha
    have := (ha.next hop hx).append he
    rw [hr] at this
    exact this.head hown
  cases ht.stage with
  | between ha hl => exact Or.inl (List.cons.inj (hahead _ (by simp [Op.ofScheduler]) ha)).1.symm
  | pass hp hin hat =>
    generalize hl : (s.cpu c).ops = l at hat hahead ho
    cases hat with
    | early _ ha => exact Or.inr (Or.inl (List.cons.inj (hahead _ (by simp [Op.ofScheduler]) ha)).1.symm)
    | locking _ ha => exact Or.inr (Or.inr (List.cons.inj (hahead _ (by simp [Op.ofScheduler]) ha)).1.symm)
    | scan i =>
      rw [← (List.cons.inj ho).1] at hop
      cases hop
    | choose =>
      rw [← (List.cons.inj ho).1] at hop
      cases hop

/-- A step of the CPU itself. -/
lemma Seen.own {r : StartupRun flag ncpu n} {k : ℕ} (h : Seen r c k)
    (ht : Tracks flag (r.state k).state c (past r c k)) (hi' : Inv (r.state (k + 1)).state emb) (hlb : r.label k = some lb)
    (hmove : SchedMove flag (r.state k).state c lb (r.state (k + 1)).state) : Seen r c (k + 1) := by
  have hpast : past r c (k + 1) = (past r c k).next flag (r.state k).state c lb := by rw [past, hlb]
  intro v hv
  obtain ⟨op', r', ho', hown⟩ := looked_own hv
  have hp' := hi'.idle_of_scheduler ho' hown
  have hops' : ((r.state (k + 1)).state.cpu c).ops = op' :: r' := ops_of_none hp' ▸ ho'
  have hnot : op' ≠ schedTop ∧ op' ≠ schedTicks := by
    constructor
    · rintro rfl
      simp [State.looked, ho'] at hv
    · rintro rfl
      simp [State.looked, ho'] at hv
  have hidle {o : Op} {x : List Op} (ho : ((r.state k).state.cpu c).ops = o :: x) (hown : o.ofScheduler = true) (hne : o ≠ schedTop) :
      (r.state k).state.ops c = o :: x := by
    by_cases hp : ((r.state k).state.cpu c).proc = none
    · exact (ops_of_none hp).trans ho
    · exact absurd (ht.idle hp ho hown) hne
  cases hmove with
  | away hp hops hloc hb hfd => exact absurd (ht.idle hp (hops ▸ hops') hown) hnot.1
  | irq e he hie _ hops hloc hb hfd =>
    cases e with
    | nil =>
      have hsame := hidle (hops.symm.trans hops') hown hnot.1
      exact h.same (looked_of_ops (ho'.trans hsame.symm)) hloc (hpast.trans (Past.next_same hb hfd)) v hv
    | cons o e =>
      rw [hops', List.cons_append] at hops
      rw [(List.cons.inj hops).1, he o (by simp)] at hown
      cases hown
  | next op r₀ e ho hop he _ hops hloc hb hfd =>
    rcases ht.after ho hop he (hops.symm.trans hops') hown with h1 | h1 | rfl
    · exact absurd h1 hnot.1
    · exact absurd h1 hnot.2
    · have hv0 : v = 0 := by simpa [State.looked, ho'] using hv.symm
      subst hv0
      exact ⟨_, fun _ => slotAt_zero _, fun _ _ i hi => absurd hi (Nat.not_lt_zero i)⟩
  | halt hcpu hm hb hfd =>
    have hsame := hidle (hcpu ▸ hops') hown hnot.1
    exact h.same (looked_of_ops (ho'.trans hsame.symm)) (by rw [hcpu]) (hpast.trans (Past.next_same hb hfd)) v hv
  | top r₀ ho _ hops =>
    rw [hops'] at hops
    rw [(List.cons.inj hops).1] at hown
    cases hown
  | ticks r₀ now ho _ hops =>
    rcases ht.stage.own ho rfl with ⟨h1, -⟩ | ⟨-, ⟨-, hr, -⟩ | ⟨⟨i, h1⟩, -⟩ | ⟨h1, -⟩⟩
    · cases h1
    · rw [hops', hr] at hops
      rw [(List.cons.inj hops).1] at hown
      cases hown
    all_goals cases h1
  | visit i r₀ ho _ hops hloc hm hb hfd =>
    have hlook : (r.state k).state.looked c = some (min i NPROC) := by simp [State.looked, hidle ho rfl (by simp)]
    obtain ⟨start, hslot, hseen⟩ := h _ hlook
    have hv' : v = min (i + 1) NPROC := by
      rw [hops'] at hops
      obtain ⟨rfl, rfl⟩ := List.cons.inj hops
      simpa [State.looked, ho'] using hv.symm
    refine ⟨start, fun hlt => ?_, fun j hj x hx heq => ?_⟩
    · have hi64 : i < NPROC := by omega
      rw [hloc, show v = i + 1 by omega]
      exact visit_slot (by rw [hslot (by omega), show min i NPROC = i by omega])
    · rw [hpast]
      have hnow : ((past r c k).next flag (r.state k).state c lb).now =
          ((past r c k).now || (r.state k).state.proc.classed flag ((r.state k).state.cpu c).loc.slot) := by
        simp [Past.next, hb, hfd]
      have hstay := hj.prev (by rw [hv]; simp)
      rw [hnow, Bool.or_eq_true]
      by_cases hold : x < min i NPROC
      · exact Or.inl (hseen j hstay x hold heq)
      · -- the slot that this step looks at
        rw [hslot (by omega), show min i NPROC = x by omega, heq]
        refine Or.inr (hstay k le_rfl fun m' h1 h2 => ?_)
        rw [show m' = k by omega, hlook]
        simp
  | stop i r₀ hi ho _ hops hloc hm hb hfd =>
    have hlook : (r.state k).state.looked c = some NPROC := by simp [State.looked, hidle ho rfl (by simp), hi]
    rcases ht.stage.own ho rfl with ⟨h1, -⟩ | ⟨-, ⟨h1, -⟩ | ⟨-, hr⟩ | ⟨h1, -⟩⟩
    · cases h1
    · cases h1
    · have hchoose : (r.state (k + 1)).state.looked c = some NPROC := by
        rw [hops', hr] at hops
        obtain ⟨rfl, -⟩ := List.cons.inj hops
        simp [State.looked, ho']
      exact h.same (hchoose.trans hlook.symm) hloc (hpast.trans (Past.next_same hb hfd)) v hv
    · cases h1
  | choose r₀ ho hops =>
    rcases ht.stage.own ho rfl with ⟨h1, -⟩ | ⟨-, ⟨h1, -⟩ | ⟨⟨i, h1⟩, -⟩ | ⟨-, hr⟩⟩
    · cases h1
    · cases h1
    · cases h1
    · rw [hops', hr] at hops
      rw [(List.cons.inj hops).1] at hown
      cases hown

/-! ### What `head` has reached -/

/-- A pointer to the last slot, and `head` at the end of the table, come from a process in the last slot. -/
structure Reached (l : SchedLocals) (q : Past) (u : Prop) : Prop where
  p : l.p = some lastSlot.val → u
  high : l.high = some lastSlot.val → u
  medium : l.medium = some lastSlot.val → u
  head : l.head = some NPROC → u
  start : q.start = some NPROC → u

lemma Unassigned.reached (h : Unassigned l) : Reached l ⟨false, false, none⟩ u := by
  refine ⟨fun hx => ?_, fun hx => ?_, fun hx => ?_, fun hx => ?_, fun hx => by cases hx⟩
  · rw [h.p] at hx
    cases hx
  · rw [h.high] at hx
    cases hx
  · rw [h.medium] at hx
    cases hx
  · rw [h.head] at hx
    cases hx

lemma Reached.mono (h : Reached l q u) (hu : u → u') : Reached l q u' :=
  ⟨fun hx => hu (h.p hx), fun hx => hu (h.high hx), fun hx => hu (h.medium hx), fun hx => hu (h.head hx), fun hx => hu (h.start hx)⟩

lemma Reached.top (h : Reached l q u) {b : Bool} : Reached l.top ⟨b, false, l.top.head⟩ u := by
  obtain ⟨hp, hhigh, hmed, -, -, -, hhead⟩ := top_spec l
  have htop : l.top.head = some NPROC → u := by
    intro hx
    rcases hhead with heq | ⟨y, hy, -, heq⟩
    · exact h.head (heq ▸ hx)
    · rw [heq] at hx
      have hy63 : y = lastSlot.val := by
        have := Option.some.inj hx
        unfold NPROC at this
        change y = 63
        omega
      exact h.p (hy63 ▸ hy)
  exact ⟨hp ▸ h.p, hhigh ▸ h.high, hmed ▸ h.medium, htop, htop⟩

/-- A visit assigns only processes that are `RUNNABLE`. -/
lemma Reached.visit (h : Reached l q u) {b : Bool} (ha : Assigns flag i l b l') (hi : b = true → i = lastSlot → u) {x y : Bool} :
    Reached l' ⟨x, y, q.start⟩ u := by
  have hslot : b = true → some i.val = some lastSlot.val → u := fun hb hx => hi hb (Fin.ext (Option.some.inj hx))
  cases ha with
  | skip => exact ⟨h.p, h.high, h.medium, h.head, h.start⟩
  | medium b x m hf hh =>
    refine ⟨h.p, h.high, fun hx => ?_, h.head, h.start⟩
    rcases hh with rfl | ⟨rfl, -⟩
    · exact hslot rfl hx
    · exact h.medium hx
  | high b x m hf hh =>
    refine ⟨h.p, fun hx => ?_, h.medium, h.head, h.start⟩
    rcases hh with rfl | ⟨rfl, -⟩
    · exact hslot rfl hx
    · exact h.high hx
  | low hf =>
    refine ⟨h.p, h.high, h.medium, fun hx => ?_, h.start⟩
    have hlt := i.isLt
    have := Option.some.inj hx
    omega
  | later hf hl => exact ⟨h.p, h.high, h.medium, h.head, h.start⟩

lemma Reached.pick (h : Reached l q u) (hu : (tbl lastSlot).state = .runnable → u) : Reached (l.pick flag tbl) q u := by
  cases flag with
  | rr => exact h
  | frr => exact ⟨h.medium, h.high, h.medium, h.head, h.start⟩
  | grt => exact ⟨h.high, h.high, h.medium, h.head, h.start⟩
  | q3 =>
    unfold SchedLocals.pick
    dsimp only
    split_ifs with h1 h2 h3
    · exact ⟨h.high, h.high, h.medium, h.head, h.start⟩
    · exact ⟨h.medium, h.high, h.medium, h.head, h.start⟩
    · refine ⟨fun hx => ?_, h.high, h.medium, h.head, h.start⟩
      obtain ⟨y, hy⟩ := Option.isSome_iff_exists.1 h3
      obtain ⟨hy1, hy2⟩ := runnableAt_some hy
      obtain rfl : y = lastSlot := Fin.ext (Option.some.inj (hy1.symm.trans hx))
      exact hu hy2
    · exact h

lemma Reached.own (h : Reached (s.cpu c).loc q u) (hf : flag ≠ .rr) (hmove : SchedMove flag s c lb s')
    (hu : (s.proc lastSlot).state = .runnable → u) : Reached (s'.cpu c).loc (q.next flag s c lb) u := by
  have hplain (hloc : (s'.cpu c).loc = (s.cpu c).loc) (hb : s.begins c lb = false) (hfd : s.finds flag c lb = false) :
      Reached (s'.cpu c).loc (q.next flag s c lb) u := by
    rw [Past.next_same hb hfd, hloc]
    exact h
  cases hmove with
  | away hp hops hloc hb hfd => exact hplain hloc hb hfd
  | irq e he hie hp' hops hloc hb hfd => exact hplain hloc hb hfd
  | next op r₀ e ho hop he hp' hops hloc hb hfd => exact hplain hloc hb hfd
  | halt hcpu hm hb hfd => exact hplain (by rw [hcpu]) hb hfd
  | top r₀ ho hp' hops hloc hb =>
    have hq : q.next flag s c lb = ⟨q.ever, false, (s.cpu c).loc.top.head⟩ := by simp [Past.next, hb]
    rw [hq, hloc]
    exact h.top
  | ticks r₀ now ho hp' hops hloc hm hb hfd =>
    rw [Past.next_same hb hfd, hloc]
    exact ⟨h.p, h.high, h.medium, h.head, h.start⟩
  | visit i r₀ ho hp' hops hloc hm hb hfd =>
    have hq : q.next flag s c lb = ⟨q.ever || s.proc.classed flag (s.cpu c).loc.slot,
        q.now || s.proc.classed flag (s.cpu c).loc.slot, q.start⟩ := by
      simp [Past.next, hb, hfd]
    rw [hq, hloc]
    exact h.visit (visit_assigns hf) fun hc hlast => hu (hlast ▸ classed_runnable hc)
  | stop i r₀ hi ho hp' hops hloc hm hb hfd => exact hplain hloc hb hfd
  | choose r₀ ho hops hloc hb hfd =>
    rw [Past.next_same hb hfd, hloc]
    exact h.pick hu

/-! ### Runs -/

lemma looked_of_cpu (hi' : Inv s' emb) (hcpu : s'.cpu c = s.cpu c) {v : ℕ} (hv : s'.looked c = some v) :
    s'.looked c = s.looked c := by
  obtain ⟨op, x, ho, hown⟩ := looked_own hv
  have hp := hi'.idle_of_scheduler ho hown
  refine looked_of_ops ?_
  rw [ops_of_none hp, ops_of_none (hcpu ▸ hp), hcpu]

lemma fed_run (r : StartupRun flag ncpu n) (hf : flag ≠ .rr) (c : CpuId) : ∀ k, k ≤ n →
    Seen r c k ∧ Reached ((r.state k).state.cpu c).loc (past r c k) (LastUsed r k) := by
  intro k hk
  induction k with
  | zero =>
    have h0 := r.starts
    obtain ⟨hp, hhigh, hmed⟩ := h0.unassigned c
    refine ⟨fun v hv => ?_, Unassigned.reached ⟨hp, hhigh, hmed, h0.head c⟩⟩
    obtain ⟨op, x, ho, hown⟩ := looked_own hv
    have hops := (ops_of_none (h0.cpuProc c)).symm.trans ho
    rw [h0.ops c] at hops
    split_ifs at hops
    obtain ⟨rfl, -⟩ := List.cons.inj hops
    simp [State.looked, ho] at hv
  | succ k ih =>
    obtain ⟨hseen, hreached⟩ := ih (by omega)
    obtain ⟨⟨emb, hi⟩, hempty⟩ := startup_inv r k (by omega)
    obtain ⟨⟨emb', hi'⟩, -⟩ := startup_inv r (k + 1) hk
    have hmono : LastUsed r k → LastUsed r (k + 1) := fun ⟨m, hm, hr⟩ => ⟨m, by omega, hr⟩
    -- the CPU does nothing in this step
    have hstill (hcpu : (r.state (k + 1)).state.cpu c = (r.state k).state.cpu c) (hp : past r c (k + 1) = past r c k) :
        Seen r c (k + 1) ∧ Reached ((r.state (k + 1)).state.cpu c).loc (past r c (k + 1)) (LastUsed r (k + 1)) := by
      refine ⟨fun v hv => hseen.same (looked_of_cpu hi' hcpu hv) (by rw [hcpu]) hp v hv, ?_⟩
      rw [hcpu, hp]
      exact hreached.mono hmono
    have hstep := r.steps k (by omega)
    cases hlb : r.label k with
    | none =>
      have hp : past r c (k + 1) = past r c k := by rw [past, hlb]
      rw [hlb] at hstep
      simp only [Startup.step] at hstep
      split_ifs at hstep with hup
      have hs : (r.state (k + 1)).state = (r.state k).state.userinit := by rw [← Option.some.inj hstep]
      by_cases hc : c = 0
      · subst hc
        refine ⟨fun v hv => ?_, ?_⟩
        · obtain ⟨op, x, ho, hown⟩ := looked_own hv
          have hops := (ops_of_none (hi'.idle_of_scheduler ho hown)).symm.trans ho
          rw [hs] at hops
          have h0 : ((r.state k).state.userinit.cpu 0).ops = [schedTop] := by simp [State.userinit]
          obtain ⟨rfl, -⟩ := List.cons.inj (h0.symm.trans hops)
          simp [State.looked, ho] at hv
        · have hloc : ((r.state (k + 1)).state.cpu 0).loc = ((r.state k).state.cpu 0).loc := by simp [hs, State.userinit]
          rw [hloc, hp]
          exact hreached.mono hmono
      · exact hstill (by rw [hs]; exact userinit_cpu_ne hc) hp
    | some lb =>
      rw [hlb] at hstep
      obtain ⟨s', hs', hs⟩ := Option.map_eq_some_iff.1 hstep
      have hst : (r.state (k + 1)).state = s' := by rw [← hs]
      have hpast : past r c (k + 1) = (past r c k).next flag (r.state k).state c lb := by rw [past, hlb]
      by_cases hc : lb.cpu = c
      · rcases tracks_run r hf c k (by omega) with ⟨hc0, hup, -⟩ | ⟨-, ht⟩
        · exact absurd (hc.trans hc0) ((hempty hup).cpu_ne hi hs')
        · have hmove := step_move hi hf hs'
          rw [hc, ← hst] at hmove
          refine ⟨hseen.own ht hi' hlb hmove, ?_⟩
          rw [hpast]
          exact (hreached.mono hmono).own hf hmove fun hr => ⟨k, by omega, hr⟩
      · obtain ⟨hb, hfd⟩ := begins_other flag (r.state k).state hc
        refine hstill ?_ (hpast.trans (Past.next_same hb hfd))
        rw [hst]
        exact (step_kind hi hs').1.cpu_ne fun h => hc h.symm

lemma Fed.now {r : StartupRun flag ncpu n} {k : ℕ} (hf : flag ≠ .rr) (hk : k ≤ n) (h : Fed r c k) : (past r c k).now = true := by
  obtain ⟨⟨rest, ho⟩, j, hj⟩ := h
  obtain ⟨start, -, hseen⟩ := (fed_run r hf c k hk).1 NPROC (by simp [State.looked, ho])
  obtain ⟨i, hi, heq⟩ := exists_slotAt start j
  exact hseen j hj i hi heq

lemma past_ever {r : StartupRun flag ncpu n} {k : ℕ} (h : (past r c k).now = true) : (past r c k).ever = true := by
  induction k with
  | zero => cases h
  | succ k ih =>
    rw [past] at h ⊢
    cases hlb : r.label k with
    | none =>
      rw [hlb] at h
      exact ih h
    | some lb =>
      rw [hlb] at h
      dsimp only at h ⊢
      unfold Past.next at h ⊢
      split_ifs at h ⊢
      simp only [Bool.or_eq_true] at h ⊢
      exact h.imp_left ih

lemma past_ever_mono {r : StartupRun flag ncpu n} {b k : ℕ} (hbk : b ≤ k) (h : (past r c b).ever = true) :
    (past r c k).ever = true := by
  induction k, hbk using Nat.le_induction with
  | base => exact h
  | succ k hk ih =>
    rw [past]
    cases r.label k with
    | none => exact ih
    | some lb =>
      dsimp only
      unfold Past.next
      split_ifs
      · exact ih
      · simp [ih]

/-- In every run, a CPU reads through assigned pointers into the table as long as its scans are fed. -/
theorem pointers_in_table_of_fed (r : StartupRun flag ncpu n) (c : CpuId) (hok : ∀ k, k ≤ n → flag ≠ .rr → ScansFed r c k) :
    ∀ k, k ≤ n → ∀ x ∈ (r.state k).state.pointers flag c, ∃ i < NPROC, x = some i := by
  intro k hk
  refine (pointers_iff_past r c k hk).2 fun hf rest ho => ?_
  rcases hok k hk hf ⟨rest, ho⟩ with hfed | ⟨⟨b, hb, hfed⟩, hlast⟩
  · exact ⟨past_ever (hfed.now hf hk), fun _ _ => hfed.now hf hk⟩
  · refine ⟨past_ever_mono hb.le (past_ever (hfed.now hf (by omega))), fun hq hstart => ?_⟩
    exact absurd ((fed_run r hf c k hk).2.start hstart) (hlast hq)

lemma scansFed_of_initproc {r : StartupRun flag ncpu n}
    (h : ∀ k, k ≤ n → ((r.state k).state.looked c = none ∨ (r.state k).state.proc.classed flag initproc = true)) :
    ∀ k, k ≤ n → ScansFed r c k := by
  intro k hk hchoose
  refine Or.inl ⟨hchoose, initproc, fun m hm hall => ?_⟩
  exact (h m (by omega)).resolve_left (hall m le_rfl hm)

/-- `userinit`, and a pass of an application processor. -/
def fedPass : List (Option Label) := none :: (go 1 72).map some

theorem pointers_in_table_of_fed_boot : ∃ r : StartupRun .q3 2 fedPass.length,
    (∃ rest, (r.state fedPass.length).state.ops 1 = choose :: rest) ∧
    ∀ k, k ≤ fedPass.length → ∀ x ∈ (r.state k).state.pointers .q3 1, ∃ i < NPROC, x = some i := by
  obtain ⟨r, hall, hend⟩ := Lts.exists_run_of_check (Startup.step .q3 2) fedPass
    (fun _ x _ => decide (x.state.looked 1 = none) || x.state.proc.classed .q3 initproc)
    (fun x => decide ((x.state.ops 1).head? = some choose) && x.state.proc.classed .q3 initproc) powerOn_powerOn (by decide +kernel)
  rw [Bool.and_eq_true, decide_eq_true_eq] at hend
  refine ⟨r, ?_, pointers_in_table_of_fed r 1 fun k hk _ => scansFed_of_initproc (fun k hk => ?_) k hk⟩
  · obtain ⟨rest, hrest⟩ := List.head?_eq_some_iff.1 hend.1
    exact ⟨rest, hrest⟩
  · rcases Nat.lt_or_eq_of_le hk with hlt | rfl
    · simpa using hall k hlt
    · exact Or.inr hend.2

/-- The first pass of an application processor, which finds the table empty. -/
def firstPass : List (Option Label) := (go 1 72).map some

/-- The application processor reads through `medium`, which nothing was assigned to. -/
theorem unassigned_read : ¬ ∀ (flag : SchedFlag) (ncpu n : ℕ) (r : StartupRun flag ncpu n) (c : CpuId) (k : ℕ), k ≤ n →
    ∀ x ∈ (r.state k).state.pointers flag c, ∃ i < NPROC, x = some i := by
  intro h
  obtain ⟨r, -, hend⟩ := Lts.exists_run_of_check (Startup.step .frr 2) firstPass (fun _ _ _ => true)
    (fun x => decide (x.state.pointers .frr 1 = [none])) powerOn_powerOn (by decide +kernel)
  have hend := of_decide_eq_true hend
  obtain ⟨i, -, hi⟩ := h .frr 2 firstPass.length r 1 firstPass.length (Nat.le_refl _) none (by rw [hend]; simp)
  cases hi

end Os132

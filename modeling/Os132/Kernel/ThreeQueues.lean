import Os132.Kernel.Pass
import Os132.Kernel.Step

/-!
# The policy `_3Q`

A pass of a scheduler that holds `ptable.lock` switches to a process of the highest class present,
whatever its local variables held before.
-/

namespace Os132

open Op

variable {ncpu : ℕ} {s s' : State} {c : CpuId} {rest : List Op}

lemma step_go {flag : SchedFlag} {op : Op} (hc : c < ncpu) (hp : s.panicked = false) (ho : s.ops c = op :: rest) :
    step flag ncpu ⟨c, .exec .go⟩ s = execOp flag c .go rest s op := by
  unfold step
  rw [if_neg (by simp [hp]; exact hc)]
  simp [ho]

/-- A scheduler in the scan, with what the scan has found so far. -/
structure Q3At (s : State) (c : CpuId) (rest : List Op) (start : ℕ) (i : ℕ) : Prop where
  proc : (s.cpu c).proc = none
  ops : (s.cpu c).ops = scan i :: rest
  panicked : s.panicked = false
  scan : ∃ h₀ p₀, Q3Scan s.proc start h₀ p₀ i (s.cpu c).loc

lemma q3At_step {start i : ℕ} (h : Q3At s c rest start i) (hc : c < ncpu) (hi : i < NPROC) :
    ∃ s', step .q3 ncpu ⟨c, .exec .go⟩ s = some s' ∧ Q3At s' c rest start (i + 1) ∧
      ∀ j, (s'.proc j).state = (s.proc j).state ∧ s'.proc.level j = s.proc.level j := by
  obtain ⟨h₀, p₀, hs⟩ := h.scan
  have hno : (visit .q3 (s.cpu c).loc s.proc).2.2 = false := by
    obtain ⟨-, -, -, h⟩ := visit_q3 (s.cpu c).loc s.proc
    exact h
  refine ⟨s.scanned c (.scan (i + 1) :: rest) (visit .q3 (s.cpu c).loc s.proc).1
    (visit .q3 (s.cpu c).loc s.proc).2.1, ?_, ⟨?_, ?_, ?_, h₀, p₀, ?_⟩, fun j => ⟨?_, visit_level j⟩⟩
  · rw [step_go hc h.panicked ((ops_of_none h.proc).trans h.ops)]
    simp [execOp, hi, hno]
  · simp [State.scanned, State.setOps_self, h.proc]
  · simp [State.scanned, State.setOps_self, h.proc]
  · simp only [State.scanned, State.setCpu, State.setOps, h.proc]
    exact h.panicked
  · have := q3Scan_visit hs
    simpa [State.scanned, State.proc] using this
  · exact visit_field .q3 _ _ j Proc.state fun _ _ _ => rfl

lemma q3At_exec {start : ℕ} (hc : c < ncpu) (ls : List Label) (k i : ℕ) (hk : i + k = NPROC)
    (h : Q3At s c rest start i) : ∃ s', Lts.exec (step .q3 ncpu) (go c k ++ ls) s = Lts.exec (step .q3 ncpu) ls s' ∧
      Q3At s' c rest start NPROC ∧
      ∀ j, (s'.proc j).state = (s.proc j).state ∧ s'.proc.level j = s.proc.level j := by
  induction k generalizing s i with
  | zero =>
    obtain rfl : i = NPROC := hk
    exact ⟨s, rfl, h, fun j => ⟨rfl, rfl⟩⟩
  | succ k ih =>
    obtain ⟨t, hstep, ht, hlev⟩ := q3At_step h hc (by omega)
    obtain ⟨s', he, hs', hlev'⟩ := ih (i + 1) (by omega) ht
    refine ⟨s', ?_, hs', fun j => ⟨(hlev' j).1.trans (hlev j).1, (hlev' j).2.trans (hlev j).2⟩⟩
    rw [← he]
    simp [go, List.replicate_succ, Lts.exec, hstep]

/-- A pass that finds a `RUNNABLE` process switches to one of the highest class, and to no other. -/
theorem q3_pass (hc : c < ncpu) (hpan : s.panicked = false) (hp : (s.cpu c).proc = none)
    (ho : (s.cpu c).ops = scan 0 :: choose :: rest) (l : SchedLocals) (now : Int)
    (hl : (s.cpu c).loc = { l.top with currentime := now })
    (hprio : ∀ j, (s.proc j).state = .runnable → (s.proc j).priority ∈ [0, LOW, MEDIUM, HIGH])
    (hr : ∃ j, (s.proc j).state = .runnable) :
    ∃ s' i, Lts.exec (step .q3 ncpu) (go c (NPROC + 2)) s = some s' ∧ (s'.cpu c).proc = some i ∧
      (s.proc i).state = .runnable ∧ (∀ j, s.proc.level j ≤ s.proc.level i) ∧
      ∀ j, (s'.proc j).state = if j = i then .running else (s.proc j).state := by
  have h0 : Q3At s c (choose :: rest) l.top.wrap 0 := ⟨hp, ho, hpan, _, _, hl ▸ q3Scan_top s.proc l now⟩
  obtain ⟨t, hexec, ht, hlev⟩ := q3At_exec hc (go c 2) NPROC 0 (Nat.zero_add _) h0
  obtain ⟨h₀, p₀, hscan⟩ := ht.scan
  have hlevel : ∀ j, (s.proc j).state = .runnable → s.proc.level j ≠ 0 := by
    intro j hj
    have := hprio j hj
    simp only [List.mem_cons, List.not_mem_nil, or_false] at this
    rw [Table.level, if_pos hj]
    rcases this with h | h | h | h <;> simp [h, HIGH, MEDIUM, LOW]
  obtain ⟨j₀, hj₀⟩ := hr
  obtain ⟨i, hchosen, -, hmax, hne, -⟩ := q3Scan_chosen hscan ⟨j₀, by rw [(hlev j₀).2]; exact hlevel j₀ hj₀⟩
  set u : State := t.setOps c (choose :: rest) with hu
  have hu1 : step .q3 ncpu ⟨c, .exec .go⟩ t = some u := by
    rw [step_go hc ht.panicked ((ops_of_none ht.proc).trans ht.ops)]
    simp [execOp, hu]
  have hup : (u.cpu c).proc = none := by simp [hu, State.setOps_self, ht.proc]
  have huo : u.ops c = choose :: rest := (threadStep_ops t c (choose :: rest)).ops
  have hul : (u.cpu c).loc = (t.cpu c).loc := by simp [hu, State.setOps_self]
  have hupr : u.proc = t.proc := by simp [hu, State.proc]
  have hupan : u.panicked = false := by
    simp only [hu, State.setOps, ht.proc]
    exact ht.panicked
  have hu2 : step .q3 ncpu ⟨c, .exec .go⟩ u =
      some ((u.scanned c rest ((u.cpu c).loc.pick .q3 u.proc) u.proc).dispatch c i) := by
    rw [step_go hc hupan huo]
    simp only [execOp]
    rw [hul, hupr, hchosen]
  refine ⟨(u.scanned c rest ((u.cpu c).loc.pick .q3 u.proc) u.proc).dispatch c i, i, ?_, ?_, ?_,
    fun j => ?_, fun j => ?_⟩
  · rw [show go c (NPROC + 2) = go c NPROC ++ go c 2 by simp [go, List.replicate_add], hexec]
    simp only [go, List.replicate, Lts.exec, hu1, hu2, Option.bind_some]
  · simp [State.dispatch]
  · rw [← (hlev i).1]
    exact Table.runnable_of_level hne
  · rw [← (hlev i).2, ← (hlev j).2]
    exact hmax j
  · have : ((u.scanned c rest ((u.cpu c).loc.pick .q3 u.proc) u.proc).dispatch c i).proc j =
        if j = i then { u.proc j with state := .running } else u.proc j := rfl
    rw [this, hupr, ← (hlev j).1]
    split_ifs <;> rfl

/-- A process of each class and one that sleeps. -/
def classes (i : Slot) : Proc :=
  if i.val = 3 then { state := .runnable, priority := LOW }
  else if i.val = 5 then { state := .sleeping, priority := HIGH }
  else if i.val = 8 then { state := .runnable, priority := HIGH }
  else if i.val = 9 then { state := .runnable, priority := MEDIUM } else {}

/-- The variables of a scheduler that has run a process of the table before. -/
def stale : SchedLocals :=
  { t := 5, head := some 5, p := some 5, high := some 5, medium := some 3, highflag := true, mediumflag := true }

/-- A scan of these processes that begins behind the process that ran last. -/
def laterScan : State :=
  { bootState with
    mem := { userinit with proc := classes }
    cpu := fun _ => { ops := scan 0 :: choose :: schedPass.drop 6, loc := stale.top } }

theorem q3_pass_laterScan :
    ∃ s' i, Lts.exec (step .q3 1) (go 0 (NPROC + 2)) laterScan = some s' ∧ (s'.cpu 0).proc = some i ∧
      (laterScan.proc i).state = .runnable ∧ (∀ j, laterScan.proc.level j ≤ laterScan.proc.level i) ∧
      ∀ j, (s'.proc j).state = if j = i then .running else (laterScan.proc j).state :=
  q3_pass (by decide) rfl rfl rfl stale 0 rfl (by decide +kernel) ⟨⟨3, by decide⟩, by decide⟩

end Os132

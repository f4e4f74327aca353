import Os132.Kernel.Rounds

/-!
# The queue of `LOW` processes

Under `_3Q` a scan begins at the `LOW` process that the last one found, or just behind it when that process
was dispatched. So the places between the beginning of the scan and a waiting `LOW` process only get
fewer, and a process that was dispatched is behind the waiting one until that is dispatched too.
-/

namespace Os132

open Op

variable {s s' : State} {l : SchedLocals} {tbl : Table} {start i k n : ℕ} {h₀ p₀ : Option ℕ} {p q : Slot} {P : ℕ → Prop}

/-- The places from address `start` to slot `j`, past the end of the table from its start. -/
def gap (start : ℕ) (j : Slot) : ℕ := (j.val + (NPROC - start % NPROC)) % NPROC

/-- A scan from `start` comes to `q` before it comes to `p`. -/
def Before (q p : Slot) (start : ℕ) : Prop := gap start q < gap start p

lemma gap_slotAt (hk : k < NPROC) : gap start (slotAt start k) = k := by
  simp only [gap, slotAt, NPROC] at *
  omega

lemma slotAt_gap (start : ℕ) (j : Slot) : slotAt start (gap start j) = j := by
  have hj := j.isLt
  refine Fin.ext ?_
  simp only [gap, slotAt, NPROC] at *
  omega

lemma gap_lt (start : ℕ) (j : Slot) : gap start j < NPROC := Nat.mod_lt _ (by decide)

lemma gap_add (hk : k ≤ gap start p) : gap (start + k) p = gap start p - k := by
  have hp := p.isLt
  simp only [gap, NPROC] at *
  omega

lemma gap_behind (p : Slot) : gap (p.val + 1) p = NPROC - 1 := by
  have hp := p.isLt
  simp only [gap, NPROC] at *
  omega

lemma gap_mod (start : ℕ) (p : Slot) : gap (start % NPROC) p = gap start p := by
  simp only [gap, Nat.mod_mod]

lemma top_wrap (h : ℕ) (hh : l.head = some h) (hlt : h < NPROC) :
    l.top.wrap = if l.p = some h then (h + 1) % NPROC else h := by
  unfold SchedLocals.top SchedLocals.wrap
  simp only [hh]
  simp only [NPROC] at *
  split_ifs with h1 h2 h3 <;> simp_all <;> omega

/-- What a scan that meets the `LOW` process `q` leaves to the next one: `head` is the first `LOW` process, at
most `q`, and the next scan begins there, or just behind it when it is the process chosen. -/
lemma q3Scan_next (h : Q3Scan tbl start h₀ p₀ NPROC l) (hq : tbl.level q = 1) : ∃ k j, k ≤ gap start q ∧
    l.chosen .q3 tbl = some j ∧ (tbl.level j = 1 → j = slotAt start k) ∧
    (l.pick .q3 tbl).top.wrap = if j = slotAt start k then (start + k + 1) % NPROC else (start + k) % NPROC := by
  obtain ⟨j, hchosen, hp, -, -, hhead⟩ := q3Scan_chosen h ⟨q, by omega⟩
  have hseen : l.lowflag = true := h.lowSeen (gap start q) (gap_lt start q) (by rw [slotAt_gap, hq])
  obtain ⟨k, hk, hlow, hlevel, hfirst⟩ := h.low hseen
  have hle : k ≤ gap start q := by
    by_contra hlt
    exact hfirst (gap start q) (by omega) (by rw [slotAt_gap, hq])
  have hpick : (l.pick .q3 tbl).head = some (slotAt start k).val := by
    obtain ⟨x, heq, -⟩ := pick_spec .q3 l tbl
    rw [heq]
    exact hlow
  refine ⟨k, j, hle, hchosen, fun h1 => ?_, ?_⟩
  · have := hhead h1
    rw [hlow] at this
    exact (Fin.ext (Option.some.inj this)).symm
  · rw [top_wrap _ hpick (slotAt start k).isLt, hp]
    have hval : (slotAt start k).val = (start + k) % NPROC := rfl
    by_cases hj : j = slotAt start k
    · rw [if_pos (by rw [hj]), if_pos hj, hval]
      simp [Nat.add_mod]
    · have hne : ¬ some j.val = some (slotAt start k).val := fun he => hj (Fin.ext (Option.some.inj he))
      rw [if_neg hne, if_neg hj, hval]

/-- The scan chooses `p`, or goes on with `q` before `p`. -/
lemma before_next (h : Q3Scan tbl start h₀ p₀ NPROC l) (hq : tbl.level q = 1) (hne : p ≠ q) (hb : Before q p start)
    (hnot : l.chosen .q3 tbl ≠ some q) : Before q p (l.pick .q3 tbl).top.wrap ∧
      ¬ (l.chosen .q3 tbl = some p ∧ tbl.level p = 1) := by
  obtain ⟨k, j, hle, hchosen, hlow, hwrap⟩ := q3Scan_next h hq
  rw [Before] at hb
  rw [hchosen] at hnot ⊢
  have hlt := gap_lt start q
  constructor
  · rw [hwrap, Before]
    by_cases hj : j = slotAt start k
    · have hk : k ≠ gap start q := by
        rintro rfl
        rw [slotAt_gap] at hj
        exact hnot (by rw [hj])
      rw [if_pos hj, gap_mod, gap_mod, Nat.add_assoc, gap_add (by omega), gap_add (by omega)]
      omega
    · rw [if_neg hj, gap_mod, gap_mod, gap_add (by omega), gap_add (by omega)]
      omega
  · rintro ⟨hj, hlevel⟩
    obtain rfl := Option.some.inj hj
    have hp := hlow hlevel
    have hgap : gap start (slotAt start k) = k := gap_slotAt (by omega)
    rw [← hp] at hgap
    omega

/-- A `LOW` process that is chosen is behind all others. -/
lemma before_of_chosen (h : Q3Scan tbl start h₀ p₀ NPROC l) (hq : tbl.level q = 1) (hne : p ≠ q)
    (hp : l.chosen .q3 tbl = some p) (hlow : tbl.level p = 1) : Before q p (l.pick .q3 tbl).top.wrap := by
  obtain ⟨k, j, hle, hchosen, hj, hwrap⟩ := q3Scan_next h hq
  rw [hchosen] at hp
  obtain rfl := Option.some.inj hp
  have hslot := hj hlow
  have hval : j.val = (start + k) % NPROC := congrArg Fin.val hslot
  rw [hwrap, if_pos hslot, Before, gap_mod, gap_mod]
  have hgap : ∀ x, gap (start + k + 1) x = gap (j.val + 1) x := by
    intro x
    rw [← gap_mod (start + k + 1), ← gap_mod (j.val + 1), hval]
    simp [Nat.add_mod]
  rw [hgap, hgap, gap_behind]
  have hqp : q.val ≠ j.val := fun he => hne (Fin.ext he.symm)
  have hql := q.isLt
  have hjl := j.isLt
  simp only [gap, NPROC] at *
  omega

/-! ### Runs -/

/-- A scan under `_3Q`, with what `P` says of the address at which it began. -/
def LowScan (P : ℕ → Prop) (tbl : Table) (i : ℕ) (l : SchedLocals) : Prop :=
  ∃ start h₀ p₀, Q3Scan tbl start h₀ p₀ i l ∧ P start

lemma Q3Scan.now (h : Q3Scan tbl start h₀ p₀ i l) (now : ℤ) :
    Q3Scan tbl start h₀ p₀ i { l with currentime := now } :=
  ⟨h.at', h.p, h.high, h.highSeen, h.grtMin, h.medium, h.mediumSeen, h.frrMin, h.low, h.lowSeen, h.head⟩

lemma keeps_lowScan (P : ℕ → Prop) : Keeps .q3 (fun l => P l.top.wrap) (LowScan P) := by
  constructor
  · intro tbl l now hP
    exact ⟨l.top.wrap, l.top.head, l.p, q3Scan_top tbl l now, hP⟩
  · rintro tbl l now ⟨start, h₀, p₀, hs, hP⟩
    exact ⟨start, h₀, p₀, hs.now now, hP⟩
  · rintro tbl i l ⟨start, h₀, p₀, hs, hP⟩
    exact ⟨start, h₀, p₀, q3Scan_visit hs, hP⟩

/-- The passes in which `q` comes before `p`. -/
abbrev Precedes (q p : Slot) (s : State) : Prop := Round (fun l => Before q p l.top.wrap) (LowScan (Before q p)) s 0

/-- No `LOW` process is dispatched twice while another one waits. -/
structure RoundRobin (r : KRun .q3 1 n) : Prop where
  once : ∀ (p q : Slot) (a b : ℕ), p ≠ q → a < b → b < n →
    (∀ k, a ≤ k → k ≤ b → ((r.state k).proc q).state = .runnable ∧ ((r.state k).proc q).priority = LOW) →
    Dispatches (r.state a) (r.state (a + 1)) 0 p → ((r.state a).proc p).priority = LOW →
    Dispatches (r.state b) (r.state (b + 1)) 0 p → ((r.state b).proc p).priority ≠ LOW

lemma level_low (hr : (tbl p).state = .runnable) (hlow : (tbl p).priority = LOW) : tbl.level p = 1 := by
  simp [Table.level, hr, hlow, LOW, MEDIUM, HIGH]

lemma Chooses.before (h : Chooses .q3 (LowScan (Before q p)) s s' 0) (hq : s.proc.level q = 1) (hne : p ≠ q)
    (hnot : (s.cpu 0).loc.chosen .q3 s.proc ≠ some q) : Precedes q p s' ∧
      ¬ ((s.cpu 0).loc.chosen .q3 s.proc = some p ∧ s.proc.level p = 1) := by
  obtain ⟨start, h₀, p₀, hs, hb⟩ := h.scanned
  obtain ⟨hnext, hother⟩ := before_next hs hq hne hb hnot
  exact ⟨h.round hnext, hother⟩

/-- On one CPU, in every run: while a `LOW` process stays `RUNNABLE`, no other one is dispatched twice. -/
theorem low_round_robin (r : KRun .q3 1 n) : RoundRobin r where
  once p q a b hne hab hb hwait hda hla hdb hlb := by
    have hf : SchedFlag.q3 ≠ .rr := by decide
    have hq : ∀ k, a ≤ k → k ≤ b → (r.state k).proc.level q = 1 := fun k hak hkb =>
      level_low (hwait k hak hkb).1 (hwait k hak hkb).2
    have hround := round_run r hf (keeps_lowScan fun _ => True) (fun _ _ => trivial) (fun _ _ _ => trivial) a (by omega)
    obtain ⟨emb, hi⟩ := run_inv r a (by omega)
    obtain ⟨hc, hp⟩ := Chooses.of_dispatches (hround.step hi hf (keeps_lowScan fun _ => True) (r.steps a (by omega))) hda
    obtain ⟨start, h₀, p₀, hs, -⟩ := hc.scanned
    have hfirst : Precedes q p (r.state (a + 1)) :=
      hc.round (before_of_chosen hs (hq a (by omega) (by omega)) hne hp (level_low (chosen_runnable hp) hla))
    have hall := r.preserved (a := a + 1) (b := b) (P := fun k s => Precedes q p s) (by omega) hfirst
      fun k hak hkb hR hs => by
        obtain ⟨emb, hi⟩ := run_inv r k (by omega)
        rcases hR.step hi hf (keeps_lowScan _) hs with ⟨hR, -⟩ | hc
        · exact hR
        · refine (hc.before (hq k (by omega) (by omega)) hne fun hch => ?_).1
          have hrun := hc.running q hch
          rw [(hwait (k + 1) (by omega) (by omega)).1] at hrun
          cases hrun
    obtain ⟨emb', hi'⟩ := run_inv r b (by omega)
    obtain ⟨hc', hp'⟩ := Chooses.of_dispatches
      ((hall b (by omega) (by omega)).step hi' hf (keeps_lowScan _) (r.steps b hb)) hdb
    have hnot : ((r.state b).cpu 0).loc.chosen .q3 (r.state b).proc ≠ some q := by
      rw [hp']
      exact fun he => hne (Option.some.inj he)
    exact (hc'.before (hq b (by omega) (by omega)) hne hnot).2 ⟨hp', level_low (chosen_runnable hp') hlb⟩

end Os132

import Os132.Kernel.Sched

/-!
# A pass of the scheduler

A pass visits every slot once, from the slot that `top` sets `t` to. `Q3Scan` says what the local
variables hold of the slots visited so far under `_3Q`: the pointers `high`, `medium` and `head`
are read only after the flag of the scan says that they point into it, whatever they held before.
-/

namespace Os132

/-- The class of a `RUNNABLE` process under `_3Q`; `0` for every other record. -/
def Table.level (tbl : Table) (j : Slot) : ℕ :=
  if (tbl j).state = .runnable then
    if (tbl j).priority = HIGH ∨ (tbl j).priority = 0 then 3
    else if (tbl j).priority = MEDIUM then 2
    else if (tbl j).priority = LOW then 1 else 0
  else 0

/-- The slot that is `k` places after address `start`, past the end of the table from its start. -/
def slotAt (start k : ℕ) : Slot := ⟨(start + k) % NPROC, Nat.mod_lt _ (by decide)⟩

/-- `k` iterations of the scan. -/
def visits (flag : SchedFlag) : ℕ → SchedLocals → Table → SchedLocals × Table
  | 0, l, tbl => (l, tbl)
  | k + 1, l, tbl => visits flag k (visit flag l tbl).1 (visit flag l tbl).2.1

variable {flag : SchedFlag} {l : SchedLocals} {tbl : Table} {start i k : ℕ} {h₀ p₀ : Option ℕ}

lemma exists_slotAt (start : ℕ) (j : Slot) : ∃ k, k < NPROC ∧ slotAt start k = j := by
  have hj := j.isLt
  unfold NPROC at hj
  refine ⟨(j.val + (64 - start % 64)) % 64, Nat.mod_lt _ (by decide), Fin.ext ?_⟩
  simp only [slotAt, NPROC]
  omega

lemma visit_level (j : Slot) : (visit flag l tbl).2.1.level j = tbl.level j := by
  have hs := visit_field flag l tbl j Proc.state fun _ _ _ => rfl
  have hp := visit_field flag l tbl j Proc.priority fun _ _ _ => rfl
  unfold Table.level
  rw [hs, hp]

/-- What the scan has left in the local variables after `i` visits from address `start`. -/
structure Q3Scan (tbl : Table) (start : ℕ) (h₀ p₀ : Option ℕ) (i : ℕ) (l : SchedLocals) : Prop where
  at' : l.slot = slotAt start i
  p : l.p = p₀
  high : l.highflag = true → ∃ j, l.high = some j.val ∧ tbl.level j = 3
  highSeen : ∀ k, k < i → tbl.level (slotAt start k) = 3 → l.highflag = true
  grtMin : l.highflag = false → l.grtMin = 0
  medium : l.mediumflag = true → ∃ j, l.medium = some j.val ∧ tbl.level j = 2
  mediumSeen : ∀ k, k < i → tbl.level (slotAt start k) = 2 → l.mediumflag = true
  frrMin : l.mediumflag = false → l.frrMin = 0
  low : l.lowflag = true → ∃ k, k < i ∧ l.head = some (slotAt start k).val ∧ tbl.level (slotAt start k) = 1 ∧
    ∀ k', k' < k → tbl.level (slotAt start k') ≠ 1
  lowSeen : ∀ k, k < i → tbl.level (slotAt start k) = 1 → l.lowflag = true
  head : l.lowflag = false → l.head = h₀

lemma slot_advance (l : SchedLocals) (start i : ℕ) (h : l.slot = slotAt start i) :
    l.advance.slot = slotAt start (i + 1) := by
  have hw : l.wrap = (start + i) % 64 := congrArg Fin.val h
  have hlt : l.wrap < 64 := l.wrap_lt
  have hadv : l.advance.wrap = if l.wrap + 1 ≥ 64 then 0 else l.wrap + 1 := rfl
  refine Fin.ext ?_
  simp only [SchedLocals.slot, slotAt, NPROC, hadv]
  split_ifs <;> omega

/-- The assignments at the top of the loop start a scan, at `head` or just after it. -/
lemma q3Scan_top (tbl : Table) (l : SchedLocals) (now : Int) :
    Q3Scan tbl l.top.wrap l.top.head l.p 0 { l.top with currentime := now } := by
  have hflags : l.top.highflag = false ∧ l.top.mediumflag = false ∧ l.top.lowflag = false ∧
      l.top.frrMin = 0 ∧ l.top.grtMin = 0 ∧ l.top.p = l.p := by
    unfold SchedLocals.top
    dsimp only
    split
    · simp
    · split_ifs <;> simp
  obtain ⟨h1, h2, h3, h4, h5, h6⟩ := hflags
  constructor <;> simp [h1, h2, h3, h4, h5, h6]
  refine Fin.ext ?_
  have := l.top.wrap_lt
  simp only [SchedLocals.slot, slotAt, Nat.add_zero, Nat.mod_eq_of_lt this]
  rfl

lemma minGrt_spec (l : SchedLocals) (i : Slot) (q : Int) : ∃ x h, l.minGrt i q = { l with grtMin := x, high := h } ∧
    (h = some i.val ∨ h = l.high ∧ l.grtMin ≠ 0) := by
  unfold SchedLocals.minGrt
  split_ifs with h0
  · exact ⟨_, _, rfl, Or.inl rfl⟩
  · exact ⟨_, _, rfl, Or.inl rfl⟩
  · exact ⟨_, _, rfl, Or.inr ⟨rfl, h0⟩⟩

lemma minFrr_spec (l : SchedLocals) (i : Slot) (q : Int) : ∃ x h, l.minFrr i q = { l with frrMin := x, medium := h } ∧
    (h = some i.val ∨ h = l.medium ∧ l.frrMin ≠ 0) := by
  unfold SchedLocals.minFrr
  split_ifs with h0
  · exact ⟨_, _, rfl, Or.inl rfl⟩
  · exact ⟨_, _, rfl, Or.inl rfl⟩
  · exact ⟨_, _, rfl, Or.inr ⟨rfl, h0⟩⟩

/-- The effect on the local variables of a visit of slot `i`, whose process has class `lv`. -/
structure Q3Visit (lv : ℕ) (i : Slot) (l l' : SchedLocals) : Prop where
  t : l'.t = l.t
  p : l'.p = l.p
  high : lv = 3 → l'.highflag = true ∧ (l'.high = some i.val ∨ l'.high = l.high ∧ l.grtMin ≠ 0)
  notHigh : lv ≠ 3 → l'.highflag = l.highflag ∧ l'.high = l.high ∧ l'.grtMin = l.grtMin
  medium : lv = 2 → l'.mediumflag = true ∧ (l'.medium = some i.val ∨ l'.medium = l.medium ∧ l.frrMin ≠ 0)
  notMedium : lv ≠ 2 → l'.mediumflag = l.mediumflag ∧ l'.medium = l.medium ∧ l'.frrMin = l.frrMin
  low : lv = 1 → l.lowflag = false → l'.lowflag = true ∧ l'.head = some i.val
  notLow : lv ≠ 1 ∨ l.lowflag = true → l'.lowflag = l.lowflag ∧ l'.head = l.head

lemma q3Visit_self (lv : ℕ) (i : Slot) (l : SchedLocals) (h : lv = 0 ∨ lv = 1 ∧ l.lowflag = true) :
    Q3Visit lv i l l := by
  rcases h with rfl | ⟨rfl, hl⟩ <;> constructor <;> simp_all

lemma visit_q3 (l : SchedLocals) (tbl : Table) : ∃ l', Q3Visit (tbl.level l.slot) l.slot l l' ∧
    (visit .q3 l tbl).1 = l'.advance ∧ (visit .q3 l tbl).2.2 = false := by
  unfold visit
  by_cases hr : (tbl l.slot).state = .runnable
  swap
  · have h0 : tbl.level l.slot = 0 := if_neg hr
    exact ⟨l, q3Visit_self _ _ _ (Or.inl h0), by simp [hr], by simp [hr]⟩
  dsimp only
  rw [if_neg (by simpa using hr)]
  dsimp only [q3Case]
  by_cases h3 : (tbl l.slot).priority = HIGH ∨ (tbl l.slot).priority = 0
  · have hlv : tbl.level l.slot = 3 := by rw [Table.level, if_pos hr, if_pos h3]
    obtain ⟨x, y, heq, hy⟩ := minGrt_spec { l with highflag := true } l.slot (grtQvalue l.currentime (tbl l.slot))
    refine ⟨{ l with highflag := true, grtMin := x, high := y }, ?_, by simp only [if_pos h3, grtCase, heq], rfl⟩
    rw [hlv]
    exact ⟨rfl, rfl, fun _ => ⟨rfl, hy⟩, by simp, by simp, fun _ => ⟨rfl, rfl, rfl⟩, by simp, fun _ => ⟨rfl, rfl⟩⟩
  rw [if_neg h3]
  by_cases h2 : (tbl l.slot).priority = MEDIUM
  · have hlv : tbl.level l.slot = 2 := by rw [Table.level, if_pos hr, if_neg h3, if_pos h2]
    obtain ⟨x, y, heq, hy⟩ := minFrr_spec { l with mediumflag := true } l.slot (tbl l.slot).qvalue
    refine ⟨{ l with mediumflag := true, frrMin := x, medium := y }, ?_, by simp only [if_pos h2, frrCase, heq], rfl⟩
    rw [hlv]
    exact ⟨rfl, rfl, by simp, fun _ => ⟨rfl, rfl, rfl⟩, fun _ => ⟨rfl, hy⟩, by simp, by simp, fun _ => ⟨rfl, rfl⟩⟩
  rw [if_neg h2]
  by_cases h1 : (tbl l.slot).priority = LOW
  · have hlv : tbl.level l.slot = 1 := by rw [Table.level, if_pos hr, if_neg h3, if_neg h2, if_pos h1]
    rw [hlv]
    cases hl : l.lowflag with
    | true => exact ⟨l, q3Visit_self _ _ _ (Or.inr ⟨rfl, hl⟩), by simp, rfl⟩
    | false =>
      refine ⟨{ l with head := some l.slot.val, lowflag := true }, ?_, by simp [h1], rfl⟩
      exact ⟨rfl, rfl, by simp, fun _ => ⟨rfl, rfl, rfl⟩, by simp, fun _ => ⟨rfl, rfl, rfl⟩, fun _ _ => ⟨rfl, rfl⟩,
        by simp [hl]⟩
  · have hlv : tbl.level l.slot = 0 := by rw [Table.level, if_pos hr, if_neg h3, if_neg h2, if_neg h1]
    exact ⟨l, q3Visit_self _ _ _ (Or.inl hlv), by simp [h1], rfl⟩

theorem q3Scan_visit (h : Q3Scan tbl start h₀ p₀ i l) :
    Q3Scan (visit .q3 l tbl).2.1 start h₀ p₀ (i + 1) (visit .q3 l tbl).1 := by
  obtain ⟨l', hv, heq, -⟩ := visit_q3 l tbl
  have hlev : ∀ j, (visit .q3 l tbl).2.1.level j = tbl.level j := fun j => visit_level j
  rw [heq]
  rw [h.at'] at hv
  generalize (visit .q3 l tbl).2.1 = tbl' at hlev
  set j := slotAt start i with hj
  have hlt : ∀ k, k < i + 1 → k < i ∨ slotAt start k = j := by
    intro k hk
    rcases Nat.lt_succ_iff_lt_or_eq.mp hk with hk | rfl
    · exact Or.inl hk
    · exact Or.inr rfl
  have hgrow : (l.highflag = true → l'.highflag = true) ∧ (l.mediumflag = true → l'.mediumflag = true) ∧
      (l.lowflag = true → l'.lowflag = true) := by
    refine ⟨fun hf => ?_, fun hf => ?_, fun hf => ?_⟩
    · by_cases hc : tbl.level j = 3
      · exact (hv.high hc).1
      · exact (hv.notHigh hc).1.trans hf
    · by_cases hc : tbl.level j = 2
      · exact (hv.medium hc).1
      · exact (hv.notMedium hc).1.trans hf
    · exact (hv.notLow (Or.inr hf)).1.trans hf
  constructor
  case at' =>
    refine slot_advance l' start i ?_
    rw [← h.at']
    simp [SchedLocals.slot, SchedLocals.wrap, hv.t]
  case p => exact hv.p.trans h.p
  case high =>
    intro hf
    simp only [hlev]
    change l'.highflag = true at hf
    by_cases hc : tbl.level j = 3
    · obtain ⟨-, hh | ⟨hh, hne⟩⟩ := hv.high hc
      · exact ⟨j, hh, hc⟩
      · obtain ⟨x, hx⟩ := h.high (by by_contra hno; exact hne (h.grtMin (by simpa using hno)))
        exact ⟨x, hh.trans hx.1, hx.2⟩
    · obtain ⟨h1, h2, -⟩ := hv.notHigh hc
      obtain ⟨x, hx⟩ := h.high (h1 ▸ hf)
      exact ⟨x, h2.trans hx.1, hx.2⟩
  case highSeen =>
    intro k hk hc
    rw [hlev] at hc
    rcases hlt k hk with hk | hk
    · exact hgrow.1 (h.highSeen k hk hc)
    · exact (hv.high (hk ▸ hc)).1
  case grtMin =>
    intro hf
    change l'.highflag = false at hf
    have hc : tbl.level j ≠ 3 := by
      intro hc
      simp [(hv.high hc).1] at hf
    obtain ⟨h1, -, h3⟩ := hv.notHigh hc
    exact h3.trans (h.grtMin (h1 ▸ hf))
  case medium =>
    intro hf
    simp only [hlev]
    change l'.mediumflag = true at hf
    by_cases hc : tbl.level j = 2
    · obtain ⟨-, hh | ⟨hh, hne⟩⟩ := hv.medium hc
      · exact ⟨j, hh, hc⟩
      · obtain ⟨x, hx⟩ := h.medium (by by_contra hno; exact hne (h.frrMin (by simpa using hno)))
        exact ⟨x, hh.trans hx.1, hx.2⟩
    · obtain ⟨h1, h2, -⟩ := hv.notMedium hc
      obtain ⟨x, hx⟩ := h.medium (h1 ▸ hf)
      exact ⟨x, h2.trans hx.1, hx.2⟩
  case mediumSeen =>
    intro k hk hc
    rw [hlev] at hc
    rcases hlt k hk with hk | hk
    · exact hgrow.2.1 (h.mediumSeen k hk hc)
    · exact (hv.medium (hk ▸ hc)).1
  case frrMin =>
    intro hf
    change l'.mediumflag = false at hf
    have hc : tbl.level j ≠ 2 := by
      intro hc
      simp [(hv.medium hc).1] at hf
    obtain ⟨h1, -, h3⟩ := hv.notMedium hc
    exact h3.trans (h.frrMin (h1 ▸ hf))
  case low =>
    intro hf
    simp only [hlev]
    change l'.lowflag = true at hf
    by_cases hc : tbl.level j ≠ 1 ∨ l.lowflag = true
    · obtain ⟨h1, h2⟩ := hv.notLow hc
      obtain ⟨k, hk, hh, hk1⟩ := h.low (h1 ▸ hf)
      exact ⟨k, by omega, h2.trans hh, hk1⟩
    · push Not at hc
      obtain ⟨hc, hl⟩ := hc
      refine ⟨i, by omega, (hv.low hc (by simpa using hl)).2, hc, fun k hk hk1 => ?_⟩
      exact hl (h.lowSeen k hk hk1)
  case lowSeen =>
    intro k hk hc
    rw [hlev] at hc
    rcases hlt k hk with hk | hk
    · exact hgrow.2.2 (h.lowSeen k hk hc)
    · cases hl : l.lowflag with
      | true => exact hgrow.2.2 hl
      | false => exact (hv.low (hk ▸ hc) hl).1
  case head =>
    intro hf
    change l'.lowflag = false at hf
    have hl : l.lowflag = false := by
      cases hl : l.lowflag with
      | false => rfl
      | true => simp [hgrow.2.2 hl] at hf
    have hc : tbl.level j ≠ 1 := by
      intro hc
      simp [(hv.low hc hl).1] at hf
    exact (hv.notLow (Or.inl hc)).2.trans (h.head hl)

lemma Table.level_le (tbl : Table) (j : Slot) : tbl.level j ≤ 3 := by
  unfold Table.level
  split_ifs <;> omega

lemma Table.runnable_of_level {j : Slot} (h : tbl.level j ≠ 0) : (tbl j).state = .runnable := by
  by_contra hr
  exact h (if_neg hr)

lemma runnableAt_val {j : Slot} (h : (tbl j).state = .runnable) : runnableAt tbl (some j.val) = some j := by
  simp [runnableAt, h]

/-- The choice after a scan of the whole table: `high` and `medium` point into this scan, and
`head` to its first `LOW` process. -/
theorem q3Scan_chosen (h : Q3Scan tbl start h₀ p₀ NPROC l) (hr : ∃ j, tbl.level j ≠ 0) :
    ∃ j, l.chosen .q3 tbl = some j ∧ (l.pick .q3 tbl).p = some j.val ∧ (∀ j', tbl.level j' ≤ tbl.level j) ∧
      tbl.level j ≠ 0 ∧ (tbl.level j = 1 → l.head = some j.val) := by
  have hchosen : ∀ j, (l.pick .q3 tbl).p = some j.val → tbl.level j ≠ 0 → l.chosen .q3 tbl = some j := by
    intro j hp hj
    rw [SchedLocals.chosen, if_neg (by decide), hp, runnableAt_val (Table.runnable_of_level hj)]
  have hseen : ∀ {n : ℕ} {b : Bool}, (∀ k, k < NPROC → tbl.level (slotAt start k) = n → b = true) → b = false →
      ∀ j, tbl.level j ≠ n := by
    intro n b hk hb j hj
    obtain ⟨k, hlt, rfl⟩ := exists_slotAt start j
    simp [hk k hlt hj] at hb
  cases hf3 : l.highflag with
  | true =>
    obtain ⟨j, hj, hlv⟩ := h.high hf3
    have hp : (l.pick .q3 tbl).p = some j.val := by simp [SchedLocals.pick, hf3, hj]
    exact ⟨j, hchosen j hp (by omega), hp, fun j' => hlv ▸ tbl.level_le j', by omega, by omega⟩
  | false =>
  have hno3 := hseen h.highSeen hf3
  cases hf2 : l.mediumflag with
  | true =>
    obtain ⟨j, hj, hlv⟩ := h.medium hf2
    have hp : (l.pick .q3 tbl).p = some j.val := by simp [SchedLocals.pick, hf3, hf2, hj]
    refine ⟨j, hchosen j hp (by omega), hp, fun j' => ?_, by omega, by omega⟩
    have := tbl.level_le j'
    have := hno3 j'
    omega
  | false =>
  have hno2 := hseen h.mediumSeen hf2
  have hle : ∀ j', tbl.level j' ≤ 1 := by
    intro j'
    have := tbl.level_le j'
    have := hno3 j'
    have := hno2 j'
    omega
  obtain ⟨j₀, hj₀⟩ := hr
  obtain ⟨k₀, hk₀, rfl⟩ := exists_slotAt start j₀
  have hlow := h.lowSeen k₀ hk₀ (by have := hle (slotAt start k₀); omega)
  obtain ⟨k, -, hh, hlv, -⟩ := h.low hlow
  have hrun := runnableAt_val (show (tbl (slotAt start k)).state = .runnable from Table.runnable_of_level (by omega))
  have hp : (l.pick .q3 tbl).p = some (slotAt start k).val := by
    simp [SchedLocals.pick, hf3, hf2, hh, hrun]
  exact ⟨_, hchosen _ hp (by omega), hp, fun j' => hlv ▸ hle j', by omega, fun _ => hh⟩

end Os132

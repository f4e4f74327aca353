import Os132.Kernel.Minimum

/-!
# The process pointers of `scheduler` in a pass

`p`, `high` and `medium` are assigned when a scan finds a process, and `head` is incremented past the
process that ran last without being wrapped around. So a scan that finds nothing can read a pointer
that nothing was assigned to, or `head` one past the end of the table.
-/

namespace Os132

variable {flag : SchedFlag} {l l' : SchedLocals} {tbl tbl' : Table} {j : Slot}

/-- The processes that a scan assigns to a pointer: under `_3Q` those of one of the three classes. -/
def Table.classed (flag : SchedFlag) (tbl : Table) (j : Slot) : Bool :=
  match flag with
  | .q3 => tbl.level j ≠ 0
  | _ => (tbl j).state = .runnable

/-- The process pointers that the code after the scan reads through, in order: `head` in the test of
its state, and `p`. `none` is a pointer that was not assigned. -/
def SchedLocals.reads (flag : SchedFlag) (l : SchedLocals) (tbl : Table) : List (Option ℕ) :=
  match flag with
  | .rr => []
  | .frr | .grt => [(l.pick flag tbl).p]
  | .q3 => (if l.highflag && l.high.isSome || l.mediumflag && l.medium.isSome || l.head.isNone then []
      else [l.head]) ++ [(l.pick .q3 tbl).p]

/-- What the scans of a CPU have found: ever, and in its latest pass; and `head` at the beginning of
that pass. -/
structure Past where
  ever : Bool
  now : Bool
  start : Option ℕ

/-- The pointer that the choice after the scan uses when it has nothing better. -/
def SchedLocals.lead (flag : SchedFlag) (l : SchedLocals) : Option ℕ :=
  match flag with
  | .frr => l.medium
  | .grt => l.high
  | _ => l.p

/-! ### The local variables -/

/-- An assigned pointer points into the table, `head` at most to its end. -/
structure Ranged (l : SchedLocals) : Prop where
  p : ∀ x, l.p = some x → x < NPROC
  high : ∀ x, l.high = some x → x < NPROC
  medium : ∀ x, l.medium = some x → x < NPROC
  head : ∀ x, l.head = some x → x ≤ NPROC

/-- What the local variables say in the middle of a pass. -/
structure InPass (flag : SchedFlag) (tbl : Table) (l : SchedLocals) (q : Past) : Prop where
  frr : l.frrMin ≠ 0 → l.medium.isSome
  grt : l.grtMin ≠ 0 → l.high.isSome
  high : l.highflag = true → l.high.isSome
  medium : l.mediumflag = true → l.medium.isSome
  low : l.lowflag = true → ∃ i : Slot, l.head = some i.val ∧ (tbl i).state = .runnable
  ever : q.ever = true → q.now = true ∨ (l.lead flag).isSome
  now : q.now = true → if flag = .q3 then l.highflag = true ∨ l.mediumflag = true ∨ l.lowflag = true
    else (l.lead flag).isSome
  idle : q.now = false → l.highflag = false ∧ l.mediumflag = false ∧ l.lowflag = false ∧ l.head = q.start

/-- Nothing was assigned, and `head` is null. -/
structure Unassigned (l : SchedLocals) : Prop where
  p : l.p = none
  high : l.high = none
  medium : l.medium = none
  head : l.head = none

lemma Unassigned.ranged (h : Unassigned l) : Ranged l := by
  constructor <;> intro x hx
  · rw [h.p] at hx
    cases hx
  · rw [h.high] at hx
    cases hx
  · rw [h.medium] at hx
    cases hx
  · rw [h.head] at hx
    cases hx

/-- The assignments at the top of the loop. -/
lemma top_spec (l : SchedLocals) : l.top.p = l.p ∧ l.top.high = l.high ∧ l.top.medium = l.medium ∧
    l.top.highflag = false ∧ l.top.mediumflag = false ∧ l.top.lowflag = false ∧
    (l.top.head = l.head ∨ ∃ h, l.p = some h ∧ l.head = some h ∧ l.top.head = some (h + 1)) := by
  unfold SchedLocals.top
  dsimp only
  split
  · simp
  · rename_i h hh
    split_ifs with hp
    · exact ⟨rfl, rfl, rfl, rfl, rfl, rfl, Or.inr ⟨h, hp, hh, rfl⟩⟩
    · simp [hh]

lemma Ranged.top (h : Ranged l) : Ranged l.top := by
  obtain ⟨hp, hhigh, hmed, -, -, -, hhead⟩ := top_spec l
  refine ⟨hp ▸ h.p, hhigh ▸ h.high, hmed ▸ h.medium, ?_⟩
  intro x hx
  rcases hhead with heq | ⟨y, hy, -, heq⟩
  · exact h.head x (heq ▸ hx)
  · have := h.p y hy
    rw [heq] at hx
    cases hx
    omega

lemma Unassigned.top (h : Unassigned l) : Unassigned l.top := by
  obtain ⟨hp, hhigh, hmed, -, -, -, hhead⟩ := top_spec l
  refine ⟨hp.trans h.p, hhigh.trans h.high, hmed.trans h.medium, ?_⟩
  rcases hhead with heq | ⟨y, -, hy, -⟩
  · exact heq.trans h.head
  · rw [h.head] at hy
    cases hy

lemma lead_top : l.top.lead flag = l.lead flag := by
  obtain ⟨hp, hhigh, hmed, -⟩ := top_spec l
  cases flag
  · exact hp
  · exact hmed
  · exact hhigh
  · exact hp

lemma InPass.top {b : Bool} (h : b = true → (l.lead flag).isSome) :
    InPass flag tbl l.top ⟨b, false, l.top.head⟩ := by
  obtain ⟨-, -, -, hh, hm, hl, -⟩ := top_spec l
  obtain ⟨hf, hg⟩ := top_resets l
  refine ⟨fun h0 => absurd hf h0, fun h0 => absurd hg h0, ?_, ?_, ?_, ?_, ?_, fun _ => ⟨hh, hm, hl, rfl⟩⟩
  · simp [hh]
  · simp [hm]
  · simp [hl]
  · exact fun hb => Or.inr (lead_top.symm ▸ h hb)
  · simp

/-- What a visit of slot `i` assigns. -/
inductive Assigns (flag : SchedFlag) (i : Slot) (l : SchedLocals) : Bool → SchedLocals → Prop
  | skip : Assigns flag i l false l.advance
  | medium (b : Bool) (x : ℕ) (h : Option ℕ) (hf : flag = .frr ∨ flag = .q3 ∧ b = true)
      (hh : h = some i.val ∨ h = l.medium ∧ l.frrMin ≠ 0) :
      Assigns flag i l true { l with mediumflag := b, frrMin := x, medium := h }.advance
  | high (b : Bool) (x : ℕ) (h : Option ℕ) (hf : flag = .grt ∨ flag = .q3 ∧ b = true)
      (hh : h = some i.val ∨ h = l.high ∧ l.grtMin ≠ 0) :
      Assigns flag i l true { l with highflag := b, grtMin := x, high := h }.advance
  | low (hf : flag = .q3) : Assigns flag i l true { l with head := some i.val, lowflag := true }.advance
  | later (hf : flag = .q3) (hl : l.lowflag = true) : Assigns flag i l true l.advance

lemma visit_assigns (hf : flag ≠ .rr) :
    Assigns flag l.slot l (tbl.classed flag l.slot) (visit flag l tbl).1 := by
  by_cases hr : (tbl l.slot).state = .runnable
  swap
  · have hc : tbl.classed flag l.slot = false := by
      cases flag <;> simp [Table.classed, Table.level, hr]
    have hv : (visit flag l tbl).1 = l.advance := by simp [visit, hr]
    rw [hc, hv]
    exact .skip
  cases flag with
  | rr => exact absurd rfl hf
  | frr =>
    obtain ⟨x, h, heq, hh⟩ := minFrr_spec l l.slot (tbl l.slot).qvalue
    have hv : (visit .frr l tbl).1 = { l with frrMin := x, medium := h }.advance := by
      simp [visit, hr, frrCase, heq]
    have hc : tbl.classed .frr l.slot = true := by simp [Table.classed, hr]
    rw [hc, hv]
    exact .medium l.mediumflag x h (Or.inl rfl) hh
  | grt =>
    obtain ⟨x, h, heq, hh⟩ := minGrt_spec l l.slot (grtQvalue l.currentime (tbl l.slot))
    have hv : (visit .grt l tbl).1 = { l with grtMin := x, high := h }.advance := by
      simp [visit, hr, grtCase, heq]
    have hc : tbl.classed .grt l.slot = true := by simp [Table.classed, hr]
    rw [hc, hv]
    exact .high l.highflag x h (Or.inl rfl) hh
  | q3 =>
    have hv : (visit .q3 l tbl).1 = (q3Case l.slot l tbl).1.advance := by simp [visit, hr]
    rw [hv]
    simp only [Table.classed, Table.level, if_pos hr, q3Case]
    split_ifs with hhigh hmed hlow
    · obtain ⟨x, h, heq, hh⟩ := minGrt_spec { l with highflag := true } l.slot (grtQvalue l.currentime (tbl l.slot))
      have hc : (grtCase l.slot { l with highflag := true } tbl).1 = { l with highflag := true, grtMin := x, high := h } :=
        heq
      rw [hc]
      exact .high true x h (Or.inr ⟨rfl, rfl⟩) hh
    · obtain ⟨x, h, heq, hh⟩ := minFrr_spec { l with mediumflag := true } l.slot (tbl l.slot).qvalue
      have hc : (frrCase l.slot { l with mediumflag := true } tbl).1 =
          { l with mediumflag := true, frrMin := x, medium := h } := heq
      rw [hc]
      exact .medium true x h (Or.inr ⟨rfl, rfl⟩) hh
    · simp_all
      exact .low rfl
    · simp_all
      exact .later rfl ‹l.lowflag = true›
    · simp_all
    · exact .skip

lemma classed_runnable (h : tbl.classed flag j = true) : (tbl j).state = .runnable := by
  cases flag with
  | q3 =>
    simp only [Table.classed, decide_eq_true_eq] at h
    exact Table.runnable_of_level h
  | rr | frr | grt => simpa [Table.classed] using h

lemma assigned_some {i : Slot} {h h₀ : Option ℕ} {x₀ : ℕ} (hh : h = some i.val ∨ h = h₀ ∧ x₀ ≠ 0)
    (h0 : x₀ ≠ 0 → h₀.isSome) :
    h.isSome := by
  rcases hh with rfl | ⟨rfl, hx⟩
  · rfl
  · exact h0 hx

lemma assigned_lt {i : Slot} {h h₀ : Option ℕ} {x₀ : ℕ} (hh : h = some i.val ∨ h = h₀ ∧ x₀ ≠ 0)
    (h0 : ∀ x, h₀ = some x → x < NPROC) :
    ∀ x, h = some x → x < NPROC := by
  rcases hh with rfl | ⟨rfl, -⟩
  · intro x hx
    cases hx
    exact i.isLt
  · exact h0

lemma Ranged.visit {i : Slot} {b : Bool} (h : Ranged l) (ha : Assigns flag i l b l') : Ranged l' := by
  cases ha with
  | skip | later => exact ⟨h.p, h.high, h.medium, h.head⟩
  | medium b x m hf hh => exact ⟨h.p, h.high, assigned_lt hh h.medium, h.head⟩
  | high b x m hf hh => exact ⟨h.p, assigned_lt hh h.high, h.medium, h.head⟩
  | low hf =>
    refine ⟨h.p, h.high, h.medium, fun x hx => ?_⟩
    cases hx
    exact i.isLt.le

lemma Unassigned.visit {i : Slot} (h : Unassigned l) (ha : Assigns flag i l false l') : Unassigned l' := by
  cases ha with
  | skip => exact ⟨h.p, h.high, h.medium, h.head⟩

/-- A visit in a pass. -/
lemma InPass.visit {q : Past} {b : Bool} {i : Slot} (h : InPass flag tbl l q) (ha : Assigns flag i l b l')
    (hs : ∀ j, (tbl' j).state = (tbl j).state) (hi : b = true → (tbl i).state = .runnable) :
    InPass flag tbl' l' ⟨q.ever || b, q.now || b, q.start⟩ := by
  have hlow : l.lowflag = true → ∃ i : Slot, l.head = some i.val ∧ (tbl' i).state = .runnable := by
    intro hl
    obtain ⟨i, hh, hr⟩ := h.low hl
    exact ⟨i, hh, (hs i).trans hr⟩
  cases ha with
  | skip =>
    simp only [Bool.or_false]
    exact ⟨h.frr, h.grt, h.high, h.medium, hlow, h.ever, h.now, h.idle⟩
  | later hf hl =>
    subst hf
    refine ⟨h.frr, h.grt, h.high, h.medium, hlow, fun _ => Or.inl (by simp), fun _ => ?_, fun hn => by simp at hn⟩
    rw [if_pos rfl]
    exact Or.inr (Or.inr hl)
  | low hf =>
    subst hf
    refine ⟨h.frr, h.grt, h.high, h.medium, fun _ => ⟨i, rfl, (hs i).trans (hi rfl)⟩, fun _ => Or.inl (by simp),
      fun _ => ?_, fun hn => by simp at hn⟩
    rw [if_pos rfl]
    exact Or.inr (Or.inr rfl)
  | medium b x m hf hh =>
    have hm := assigned_some hh h.frr
    refine ⟨fun _ => hm, h.grt, h.high, fun _ => hm, hlow, fun _ => Or.inl (by simp), fun _ => ?_,
      fun hn => by simp at hn⟩
    rcases hf with rfl | ⟨rfl, rfl⟩
    · exact hm
    · exact Or.inr (Or.inl rfl)
  | high b x m hf hh =>
    have hm := assigned_some hh h.grt
    refine ⟨h.frr, fun _ => hm, fun _ => hm, h.medium, hlow, fun _ => Or.inl (by simp), fun _ => ?_,
      fun hn => by simp at hn⟩
    rcases hf with rfl | ⟨rfl, rfl⟩
    · exact hm
    · exact Or.inl rfl

/-! ### The choice after the scan -/

lemma runnableAt_lt {x : Option ℕ} (h : (runnableAt tbl x).isSome = true) : ∃ y, x = some y ∧ y < NPROC := by
  obtain ⟨i, hi⟩ := Option.isSome_iff_exists.1 h
  exact ⟨i.val, (runnableAt_some hi).1, i.isLt⟩

lemma pick_spec (flag : SchedFlag) (l : SchedLocals) (tbl : Table) : ∃ x, l.pick flag tbl = { l with p := x } ∧
    (x = l.p ∨ x = l.high ∨ x = l.medium ∨ x = l.head ∧ (runnableAt tbl l.head).isSome = true) := by
  unfold SchedLocals.pick
  cases flag with
  | rr => exact ⟨l.p, rfl, Or.inl rfl⟩
  | frr => exact ⟨l.medium, rfl, Or.inr (Or.inr (Or.inl rfl))⟩
  | grt => exact ⟨l.high, rfl, Or.inr (Or.inl rfl)⟩
  | q3 =>
    dsimp only
    split_ifs with hh hm hl
    · exact ⟨l.high, rfl, Or.inr (Or.inl rfl)⟩
    · exact ⟨l.medium, rfl, Or.inr (Or.inr (Or.inl rfl))⟩
    · exact ⟨l.head, rfl, Or.inr (Or.inr (Or.inr ⟨rfl, hl⟩))⟩
    · exact ⟨l.p, rfl, Or.inl rfl⟩

lemma Ranged.pick (h : Ranged l) : Ranged (l.pick flag tbl) := by
  obtain ⟨x, heq, hx⟩ := pick_spec flag l tbl
  rw [heq]
  refine ⟨?_, h.high, h.medium, h.head⟩
  intro y hy
  change x = some y at hy
  rcases hx with rfl | rfl | rfl | ⟨rfl, hr⟩
  · exact h.p y hy
  · exact h.high y hy
  · exact h.medium y hy
  · obtain ⟨z, hz, hlt⟩ := runnableAt_lt hr
    rw [hz] at hy
    cases hy
    exact hlt

lemma Unassigned.pick (h : Unassigned l) : Unassigned (l.pick flag tbl) := by
  obtain ⟨x, heq, hx⟩ := pick_spec flag l tbl
  rw [heq]
  refine ⟨?_, h.high, h.medium, h.head⟩
  rcases hx with rfl | rfl | rfl | ⟨rfl, -⟩
  · exact h.p
  · exact h.high
  · exact h.medium
  · exact h.head

/-- After a pass in which, or before which, a scan has found a process, `p` has been assigned. -/
lemma InPass.pick {q : Past} (hf : flag ≠ .rr) (h : InPass flag tbl l q) (he : q.ever = true) :
    ((l.pick flag tbl).lead flag).isSome ∧ (l.pick flag tbl).p.isSome := by
  have hlead : flag ≠ .q3 → (l.lead flag).isSome = true := by
    intro hq
    rcases h.ever he with hnow | hl
    · have := h.now hnow
      rwa [if_neg hq] at this
    · exact hl
  cases flag with
  | rr => exact absurd rfl hf
  | frr => exact ⟨hlead (by simp), hlead (by simp)⟩
  | grt => exact ⟨hlead (by simp), hlead (by simp)⟩
  | q3 =>
    suffices hp : (l.pick .q3 tbl).p.isSome = true from ⟨hp, hp⟩
    unfold SchedLocals.pick
    dsimp only
    split_ifs with hh hm hl
    · simp only [Bool.and_eq_true] at hh
      exact hh.2
    · simp only [Bool.and_eq_true] at hm
      exact hm.2
    · obtain ⟨y, hy, -⟩ := runnableAt_lt hl
      simp [hy]
    · rcases h.ever he with hnow | hp
      · have hflags := h.now hnow
        rw [if_pos rfl] at hflags
        rcases hflags with hf | hf | hf
        · exact absurd (by simp [hf, h.high hf]) hh
        · exact absurd (by simp [hf, h.medium hf]) hm
        · obtain ⟨i, hi, hr⟩ := h.low hf
          rw [hi, runnableAt_val hr] at hl
          exact absurd rfl hl
      · exact hp

/-- What the code after the scan reads through is assigned and in the table exactly when the scans of the
CPU have found a process and, under `_3Q`, this one has if it began at the end of the table. -/
lemma InPass.reads_iff {q : Past} (hf : flag ≠ .rr) (h : InPass flag tbl l q) (hr : Ranged l)
    (hu : q.ever = false → Unassigned l) : (∀ x ∈ l.reads flag tbl, ∃ i < NPROC, x = some i) ↔
      q.ever = true ∧ (flag = .q3 → q.start = some NPROC → q.now = true) := by
  have hpick := @Ranged.pick flag l tbl hr
  have hmem : (l.pick flag tbl).p ∈ l.reads flag tbl := by
    cases flag <;> simp [SchedLocals.reads] at hf ⊢
  constructor
  · intro hall
    constructor
    · by_contra he
      obtain ⟨i, -, hi⟩ := hall _ hmem
      rw [((hu (by simpa using he)).pick).p] at hi
      cases hi
    · rintro rfl hstart
      by_contra hnow
      obtain ⟨hh, hm, -, hhead⟩ := h.idle (by simpa using hnow)
      obtain ⟨i, hi, heq⟩ := hall l.head (by simp [SchedLocals.reads, hh, hm, hhead, hstart])
      rw [hhead, hstart] at heq
      cases heq
      omega
  · rintro ⟨he, hend⟩ x hx
    have hp := (h.pick hf he).2
    have hpok : ∃ i < NPROC, (l.pick flag tbl).p = some i := by
      obtain ⟨i, hi⟩ := Option.isSome_iff_exists.1 hp
      exact ⟨i, hpick.p i hi, hi⟩
    cases flag with
    | rr => exact absurd rfl hf
    | frr | grt =>
      rw [List.mem_singleton.1 hx]
      exact hpok
    | q3 =>
      simp only [SchedLocals.reads] at hx
      rcases List.mem_append.1 hx with hx | hx
      · split_ifs at hx with hc
        · cases hx
        · rw [List.mem_singleton.1 hx]
          simp only [Bool.or_eq_true, not_or] at hc
          obtain ⟨⟨hnh, hnm⟩, hns⟩ := hc
          obtain ⟨y, hy⟩ : ∃ y, l.head = some y := by
            cases hh : l.head with
            | none => simp [hh] at hns
            | some y => exact ⟨y, rfl⟩
          have hle := hr.head y hy
          refine ⟨y, ?_, hy⟩
          by_cases hl : l.lowflag = true
          · obtain ⟨i, hi, -⟩ := h.low hl
            rw [hy] at hi
            cases hi
            exact i.isLt
          · have hnow : q.now = false := by
              by_contra hnow
              have hflags := h.now (by simpa using hnow)
              rw [if_pos rfl] at hflags
              rcases hflags with hf | hf | hf
              · exact hnh (by simp [hf, h.high hf])
              · exact hnm (by simp [hf, h.medium hf])
              · exact hl hf
            obtain ⟨-, -, -, hhead⟩ := h.idle hnow
            have hne : y ≠ NPROC := by
              rintro rfl
              have := hend rfl (hhead.symm.trans hy)
              rw [hnow] at this
              cases this
            omega
      · rw [List.mem_singleton.1 hx]
        exact hpok

end Os132

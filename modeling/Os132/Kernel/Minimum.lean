import Os132.Kernel.ThreeQueues
import Os132.Lib.Search
import Mathlib.Data.List.DropRight
import Mathlib.Data.Rat.Defs
import Mathlib.Algebra.Order.Field.Basic
import Mathlib.Algebra.Order.Field.Rat
import Mathlib.Tactic.NormNum

/-!
# The minimum searches of `scheduler`

`frr_min` and `grt_min` start at 0, and 0 also stands for "no process yet": both searches are searches that take 0 for
"none yet" (`Search.run`), over the `RUNNABLE` processes of the class in the order of the scan.
-/

namespace Os132

open Op

variable {flag : SchedFlag} {l : SchedLocals} {tbl tbl' : Table} {start i k ncpu : ℕ} {s s' : State} {c : CpuId} {rest : List Op}
  {now : ℤ}

/-- The class that the minimum search looks at: `MEDIUM` under `_3Q`, every `RUNNABLE` process otherwise. -/
def Table.searched (flag : SchedFlag) (tbl : Table) (j : Slot) : Bool :=
  match flag with
  | .q3 => tbl.level j == 2
  | _ => (tbl j).state == .runnable

/-- The processes of the class among the first `k` slots of a scan, in its order. -/
def inOrder (flag : SchedFlag) (tbl : Table) (start k : ℕ) : List Slot := ((List.range k).map (slotAt start)).filter (tbl.searched flag)

lemma inOrder_succ : inOrder flag tbl start (k + 1) =
    inOrder flag tbl start k ++ if tbl.searched flag (slotAt start k) then [slotAt start k] else [] := by
  unfold inOrder
  rw [List.range_succ, List.map_append, List.filter_append]
  congr 1
  simp only [List.map_cons, List.map_nil, List.filter_cons, List.filter_nil]

lemma mem_inOrder {j : Slot} : j ∈ inOrder flag tbl start NPROC ↔ tbl.searched flag j = true := by
  unfold inOrder
  rw [List.mem_filter]
  constructor
  · exact fun h => h.2
  · intro h
    obtain ⟨k, hk, hj⟩ := exists_slotAt start j
    exact ⟨List.mem_map.2 ⟨k, List.mem_range.2 hk, hj⟩, h⟩

/-- A running minimum and its holder after a search over `seen`; the holder is unassigned, or left from an earlier pass, until
one is seen. -/
structure Found (q : Slot → ℕ) (min : ℕ) (holder : Option ℕ) (seen : List Slot) : Prop where
  min : min = (Search.run q seen (0, none)).1
  holder : seen ≠ [] → holder = (Search.run q seen (0, none)).2.map Fin.val

/-- One test of a minimum search. -/
def minStep (min : ℕ) (holder : Option ℕ) (i : Slot) (q : ℤ) : ℕ × Option ℕ :=
  if min = 0 then (uint32 q, some i) else if q < min then (uint32 q, some i) else (min, holder)

lemma minFrr_eq (i : Slot) (q : ℤ) : l.minFrr i q = { l with
    frrMin := (minStep l.frrMin l.medium i q).1, medium := (minStep l.frrMin l.medium i q).2 } := by
  unfold SchedLocals.minFrr minStep
  split_ifs <;> rfl

lemma minGrt_eq (i : Slot) (q : ℤ) : l.minGrt i q = { l with
    grtMin := (minStep l.grtMin l.high i q).1, high := (minStep l.grtMin l.high i q).2 } := by
  unfold SchedLocals.minGrt minStep
  split_ifs <;> rfl

lemma Found.step {key : Slot → ℕ} {min : ℕ} {holder : Option ℕ} {seen : List Slot} (h : Found key min holder seen) {j : Slot} {q : ℤ}
    (hq : 0 ≤ q ∧ q < 4294967296) (hkey : key j = q.toNat) :
    Found key (minStep min holder j q).1 (minStep min holder j q).2 (seen ++ [j]) := by
  have huint : uint32 q = key j := by
    rw [hkey, uint32, Int.emod_eq_of_lt hq.1 hq.2]
  have hlt : q < min ↔ key j < min := by
    rw [hkey]
    omega
  have hmin := h.min
  have hstep : minStep min holder j q = if min = 0 ∨ key j < min then (key j, some j.val) else (min, holder) := by
    unfold minStep
    rw [huint]
    by_cases h0 : min = 0
    · rw [if_pos h0, if_pos (Or.inl h0)]
    · rw [if_neg h0]
      by_cases hk : q < min
      · rw [if_pos hk, if_pos (Or.inr (hlt.1 hk))]
      · rw [if_neg hk, if_neg (by rintro (h | h); exacts [h0 h, hk (hlt.2 h)])]
  rw [hstep]
  constructor
  · rw [Search.run_concat, Search.look, ← hmin]
    split_ifs <;> first | rfl | exact hmin
  · intro _
    rw [Search.run_concat, Search.look, ← hmin]
    split_ifs with hlook
    · rfl
    · apply h.holder
      rintro rfl
      exact hlook (Or.inl hmin)

lemma visit_searched (j : Slot) : (visit flag l tbl).2.1.searched flag j = tbl.searched flag j := by
  have hs := visit_field flag l tbl j Proc.state fun _ _ _ => rfl
  cases flag with
  | q3 => simp only [Table.searched, visit_level]
  | rr => simp only [Table.searched, hs]
  | frr => simp only [Table.searched, hs]
  | grt => simp only [Table.searched, hs]

/-- Where the next iteration looks. -/
lemma visit_slot (h : l.slot = slotAt start k) : (visit flag l tbl).1.slot = slotAt start (k + 1) := by
  have ht : (visit flag l tbl).1.t = l.wrap + 1 := by
    unfold visit
    dsimp only
    split_ifs
    · rfl
    · cases flag with
      | rr => rfl
      | frr =>
        dsimp only [frrCase]
        rw [minFrr_eq]
        rfl
      | grt =>
        dsimp only [grtCase]
        rw [minGrt_eq]
        rfl
      | q3 =>
        dsimp only [q3Case, grtCase, frrCase]
        split_ifs
        · rw [minGrt_eq]
          rfl
        · rw [minFrr_eq]
          rfl
        · rfl
        · rfl
  have hadv := slot_advance l start k h
  have hslot : (visit flag l tbl).1.slot = l.advance.slot := by
    apply Fin.ext
    simp only [SchedLocals.slot, SchedLocals.wrap, ht, SchedLocals.advance]
    rfl
  rw [hslot, hadv]

/-- The search of the `FRR` label, under `_FRR` and `_3Q`. -/
lemma visit_medium (hf : flag = .frr ∨ flag = .q3) : ((visit flag l tbl).1.frrMin, (visit flag l tbl).1.medium) =
    if tbl.searched flag l.slot then minStep l.frrMin l.medium l.slot (tbl l.slot).qvalue else (l.frrMin, l.medium) := by
  rcases hf with rfl | rfl
  · simp only [visit, Table.searched]
    by_cases hr : (tbl l.slot).state = .runnable
    · simp [hr, frrCase, minFrr_eq, SchedLocals.advance]
    · simp [hr, SchedLocals.advance]
  · obtain ⟨l', hv, heq, -⟩ := visit_q3 l tbl
    simp only [Table.searched, beq_iff_eq]
    by_cases hc : tbl.level l.slot = 2
    · rw [if_pos hc]
      have hr : (tbl l.slot).state = .runnable := by
        by_contra hr
        rw [Table.level, if_neg hr] at hc
        cases hc
      have h3 : ¬ ((tbl l.slot).priority = HIGH ∨ (tbl l.slot).priority = 0) := by
        intro h3
        rw [Table.level, if_pos hr, if_pos h3] at hc
        cases hc
      have h2 : (tbl l.slot).priority = MEDIUM := by
        by_contra h2
        rw [Table.level, if_pos hr, if_neg h3, if_neg h2] at hc
        split_ifs at hc
        cases hc
      simp [visit, hr, q3Case, if_neg h3, if_pos h2, frrCase, minFrr_eq, SchedLocals.advance]
    · rw [if_neg hc, heq]
      obtain ⟨-, h2, h3⟩ := hv.notMedium hc
      exact Prod.ext h3 h2

lemma visit_qvalue (hf : flag = .frr ∨ flag = .q3) {j : Slot} (hj : tbl.searched flag j = true) :
    ((visit flag l tbl).2.1 j).qvalue = (tbl j).qvalue := by
  have hquanta : ∀ i : Slot, (tbl.set i (fun p => { p with quanta := QUANTA }) j).qvalue = (tbl j).qvalue := fun i =>
    tbl.set_field i j _ Proc.qvalue fun _ => rfl
  rcases hf with rfl | rfl
  · unfold visit
    dsimp only [frrCase]
    split_ifs
    · rfl
    · exact hquanta _
  · unfold visit
    dsimp only [q3Case, grtCase, frrCase]
    split_ifs with hr h3 h2 h1
    · rfl
    · have hne : j ≠ l.slot := by
        rintro rfl
        simp only [Table.searched, Table.level, beq_iff_eq] at hj
        rw [if_pos (by simpa using hr), if_pos h3] at hj
        cases hj
      simp only [Table.set, if_neg hne]
    · exact hquanta _
    · exact hquanta _
    · rfl

/-- What the search of the `FRR` label has found after `k` visits. -/
structure MediumScan (flag : SchedFlag) (tbl₀ : Table) (start k : ℕ) (l : SchedLocals) (tbl : Table) : Prop where
  slot : l.slot = slotAt start k
  found : Found (fun j => (tbl₀ j).qvalue.toNat) l.frrMin l.medium (inOrder flag tbl₀ start k)
  searched : ∀ j, tbl.searched flag j = tbl₀.searched flag j
  qvalue : ∀ j, tbl₀.searched flag j = true → (tbl j).qvalue = (tbl₀ j).qvalue

lemma MediumScan.visit {tbl₀ : Table} (hf : flag = .frr ∨ flag = .q3) (hs : MediumScan flag tbl₀ start k l tbl)
    (hq : ∀ j, tbl₀.searched flag j = true → 0 ≤ (tbl₀ j).qvalue ∧ (tbl₀ j).qvalue < 4294967296) :
    MediumScan flag tbl₀ start (k + 1) (visit flag l tbl).1 (visit flag l tbl).2.1 := by
  have hmed := @visit_medium flag l tbl hf
  rw [hs.searched, hs.slot] at hmed
  refine ⟨visit_slot hs.slot, ?_, fun j => (visit_searched j).trans (hs.searched j), fun j hj => ?_⟩
  · rw [inOrder_succ]
    by_cases hc : tbl₀.searched flag (slotAt start k) = true
    · rw [if_pos hc, hs.qvalue _ hc] at hmed
      rw [if_pos hc, (Prod.mk.inj hmed).1, (Prod.mk.inj hmed).2]
      exact hs.found.step (hq _ hc) rfl
    · rw [if_neg hc] at hmed
      rw [if_neg hc, List.append_nil, (Prod.mk.inj hmed).1, (Prod.mk.inj hmed).2]
      exact hs.found
  · rw [visit_qvalue hf ((hs.searched j).trans hj), hs.qvalue j hj]

/-- The scheduler is about to look at slot `i` of its scan. -/
structure Scanning (s : State) (c : CpuId) (rest : List Op) (i : ℕ) : Prop where
  proc : (s.cpu c).proc = none
  ops : (s.cpu c).ops = scan i :: rest
  panicked : s.panicked = false

/-- A scan that does not switch is a sequence of visits. -/
lemma scanning_exec (hf : flag ≠ .rr) (hc : c < ncpu) (ls : List Label) (k i : ℕ) (hk : i + k = NPROC) (h : Scanning s c rest i) :
    ∃ s', Lts.exec (step flag ncpu) (go c k ++ ls) s = Lts.exec (step flag ncpu) ls s' ∧ Scanning s' c rest NPROC ∧
      (s'.cpu c).loc = (visits flag k (s.cpu c).loc s.proc).1 ∧ s'.proc = (visits flag k (s.cpu c).loc s.proc).2 := by
  induction k generalizing s i with
  | zero =>
    obtain rfl : i = NPROC := hk
    exact ⟨s, rfl, h, rfl, rfl⟩
  | succ k ih =>
    have hno : (visit flag (s.cpu c).loc s.proc).2.2 = false := by
      unfold visit
      dsimp only
      split_ifs
      · rfl
      · cases flag <;> first | rfl | exact absurd rfl hf
    set t := s.scanned c (scan (i + 1) :: rest) (visit flag (s.cpu c).loc s.proc).1 (visit flag (s.cpu c).loc s.proc).2.1 with ht
    have hi : i < NPROC := by omega
    have hstep : step flag ncpu ⟨c, .exec .go⟩ s = some t := by
      rw [step_go hc h.panicked ((ops_of_none h.proc).trans h.ops)]
      simp [execOp, hi, hno, ht]
    have hscan : Scanning t c rest (i + 1) := by
      refine ⟨?_, ?_, ?_⟩
      · simp [ht, State.scanned, State.setOps_self, h.proc]
      · simp [ht, State.scanned, State.setOps_self, h.proc]
      · simp only [ht, State.scanned, State.setCpu, State.setOps, h.proc]
        exact h.panicked
    have hloc : (t.cpu c).loc = (visit flag (s.cpu c).loc s.proc).1 := by simp [ht, State.scanned]
    have hproc : t.proc = (visit flag (s.cpu c).loc s.proc).2.1 := rfl
    obtain ⟨s', he, hs', hl, hp⟩ := ih (i + 1) (by omega) hscan
    refine ⟨s', ?_, hs', ?_, ?_⟩
    · rw [← he]
      simp [go, List.replicate_succ, Lts.exec, hstep]
    · rw [hl, hloc, hproc]
      rfl
    · rw [hp, hloc, hproc]
      rfl

lemma visits_mediumScan {tbl₀ : Table} (hf : flag = .frr ∨ flag = .q3)
    (hq : ∀ j, tbl₀.searched flag j = true → 0 ≤ (tbl₀ j).qvalue ∧ (tbl₀ j).qvalue < 4294967296) (k i : ℕ)
    (h : MediumScan flag tbl₀ start i l tbl) :
    MediumScan flag tbl₀ start (i + k) (visits flag k l tbl).1 (visits flag k l tbl).2 := by
  induction k generalizing i l tbl with
  | zero => exact h
  | succ k ih =>
    have := ih (i + 1) (h.visit hf hq)
    rwa [Nat.add_assoc, Nat.add_comm 1 k] at this

lemma top_resets (l : SchedLocals) : l.top.frrMin = 0 ∧ l.top.grtMin = 0 := by
  unfold SchedLocals.top
  dsimp only
  split
  · simp
  · split_ifs <;> simp

lemma slotAt_zero (l : SchedLocals) : l.slot = slotAt l.wrap 0 := by
  apply Fin.ext
  simp only [SchedLocals.slot, slotAt, Nat.add_zero, Nat.mod_eq_of_lt l.wrap_lt]

lemma mediumScan_top (flag : SchedFlag) (tbl : Table) (l : SchedLocals) (now : ℤ) :
    MediumScan flag tbl l.top.wrap 0 { l.top with currentime := now } tbl :=
  ⟨slotAt_zero l.top, ⟨(top_resets l).1, fun h => absurd rfl h⟩, fun _ => rfl, fun _ _ => rfl⟩

/-- The process that `medium` points to is in the class and comes first in its queue. -/
def MediumLeast (flag : SchedFlag) (tbl : Table) (l : SchedLocals) : Prop :=
  ∃ i : Slot, l.medium = some i.val ∧ (tbl i).state = .runnable ∧ tbl.searched flag i = true ∧
    ∀ j, tbl.searched flag j = true → (tbl i).qvalue ≤ (tbl j).qvalue

lemma runnable_of_searched {j : Slot} (hj : tbl.searched flag j = true) : (tbl j).state = .runnable := by
  cases flag with
  | q3 =>
    simp only [Table.searched, beq_iff_eq] at hj
    by_contra hr
    rw [Table.level, if_neg hr] at hj
    cases hj
  | rr => simpa [Table.searched] using hj
  | frr => simpa [Table.searched] using hj
  | grt => simpa [Table.searched] using hj

/-- A pass that scans a process of the class ends with the first of the queue in `medium` if and only if no process of the class
has `qvalue` 0 or the one that was scanned last has. -/
theorem medium_least_iff (hf : flag = .frr ∨ flag = .q3) (hc : c < ncpu) (hs : Scanning s c rest 0) (l : SchedLocals)
    (hl : (s.cpu c).loc = { l.top with currentime := now })
    (hq : ∀ j, s.proc.searched flag j = true → 0 ≤ (s.proc j).qvalue ∧ (s.proc j).qvalue < 4294967296)
    (hsome : ∃ j, s.proc.searched flag j = true) :
    ∃ s', Lts.exec (step flag ncpu) (go c NPROC) s = some s' ∧ (s'.cpu c).ops = scan NPROC :: rest ∧
      (MediumLeast flag s'.proc (s'.cpu c).loc ↔ (∀ j, s.proc.searched flag j = true → (s.proc j).qvalue ≠ 0) ∨
        ∃ j, (inOrder flag s.proc l.top.wrap NPROC).getLast? = some j ∧ (s.proc j).qvalue = 0) := by
  obtain ⟨s', he, hs', hloc, hproc⟩ := @scanning_exec flag ncpu s c rest (by rcases hf with rfl | rfl <;> simp) hc [] NPROC 0
    (Nat.zero_add _) hs
  rw [List.append_nil] at he
  refine ⟨s', he, hs'.ops, ?_⟩
  have hscan := visits_mediumScan hf hq NPROC 0 (mediumScan_top flag s.proc l now)
  rw [Nat.zero_add, ← hl, ← hloc, ← hproc] at hscan
  have hne : inOrder flag s.proc l.top.wrap NPROC ≠ [] := by
    obtain ⟨j, hj⟩ := hsome
    exact List.ne_nil_of_mem (mem_inOrder.2 hj)
  obtain ⟨a, w, b, horder, hw⟩ := Search.exists_wins (q := fun j => (s.proc j).qvalue.toNat) hne
  have hmed : (s'.cpu c).loc.medium = some w.val := by
    rw [hscan.found.holder hne, horder, hw.run]
    rfl
  have hmem : ∀ j, j ∈ a ++ w :: b ↔ s.proc.searched flag j = true := fun j => horder ▸ mem_inOrder
  have hwc : s.proc.searched flag w = true := (hmem w).1 (by simp)
  have hle : ∀ i j, s.proc.searched flag i = true → s.proc.searched flag j = true →
      ((s.proc i).qvalue.toNat ≤ (s.proc j).qvalue.toNat ↔ (s.proc i).qvalue ≤ (s.proc j).qvalue) := by
    intro i j hi hj
    have := (hq i hi).1
    have := (hq j hj).1
    omega
  have hleast : MediumLeast flag s'.proc (s'.cpu c).loc ↔ ∀ x ∈ a ++ w :: b, (s.proc w).qvalue.toNat ≤ (s.proc x).qvalue.toNat := by
    constructor
    · rintro ⟨i, hi, -, hic, hmin⟩ x hx
      have hiw : i = w := Fin.ext (Option.some.inj (hi.symm.trans hmed))
      subst hiw
      have hxc := (hmem x).1 hx
      have := hmin x ((hscan.searched x).trans hxc)
      rw [hscan.qvalue i hwc, hscan.qvalue x hxc] at this
      exact (hle i x hwc hxc).2 this
    · intro hmin
      have hwc' := (hscan.searched w).trans hwc
      refine ⟨w, hmed, runnable_of_searched hwc', hwc', fun j hj => ?_⟩
      have hjc := (hscan.searched j).symm.trans hj
      rw [hscan.qvalue w hwc, hscan.qvalue j hjc]
      exact (hle w j hwc hjc).1 (hmin j ((hmem j).2 hjc))
  rw [hleast, hw.least_iff, horder]
  have hzero : ∀ j, s.proc.searched flag j = true → ((s.proc j).qvalue.toNat = 0 ↔ (s.proc j).qvalue = 0) := by
    intro j hj
    have := (hq j hj).1
    omega
  apply or_congr
  · constructor
    · exact fun h j hj hj0 => h j ((hmem j).2 hj) ((hzero j hj).2 hj0)
    · exact fun h j hj hj0 => h j ((hmem j).1 hj) ((hzero j ((hmem j).1 hj)).1 hj0)
  · apply exists_congr
    intro j
    apply and_congr_right
    intro hlast
    exact hzero j ((hmem j).1 (List.mem_of_getLast? hlast))

/-- The second entry of `ptable.proc`. -/
def secondproc : Slot := ⟨1, by decide⟩

/-- A machine with two processes in its table, at the first slot of a scan. -/
def pairScan (p q : Proc) (now : ℤ) : State :=
  { bootState with
    mem := { userinit with proc := fun i => if i = initproc then p else if i = secondproc then q else {} }
    cpu := fun _ => { ops := scan 0 :: choose :: schedPass.drop 6, loc := { ({} : SchedLocals).top with currentime := now } } }

/-- Process 0 came first in the queue and process 1 later. -/
def twoQueued : State := pairScan { state := .runnable, qvalue := 3 } { state := .runnable, qvalue := 5 } 9

theorem medium_least_iff_twoQueued :
    ∃ s', Lts.exec (step .frr 1) (go 0 NPROC) twoQueued = some s' ∧ (s'.cpu 0).ops = scan NPROC :: choose :: schedPass.drop 6 ∧
      (MediumLeast .frr s'.proc (s'.cpu 0).loc ↔
        (∀ j, twoQueued.proc.searched .frr j = true → (twoQueued.proc j).qvalue ≠ 0) ∨
        ∃ j, (inOrder .frr twoQueued.proc ({} : SchedLocals).top.wrap NPROC).getLast? = some j ∧ (twoQueued.proc j).qvalue = 0) :=
  medium_least_iff (Or.inl rfl) (by decide) ⟨rfl, rfl, rfl⟩ {} rfl (by decide) ⟨initproc, by decide⟩

/-- The first process has the `qvalue` 0 that `userinit` leaves, and the second one takes its place in `medium`. -/
def firstQueued : State := pairScan { state := .runnable, qvalue := 0 } { state := .runnable, qvalue := 5 } 9

theorem medium_not_least : (∀ j, 0 ≤ (firstQueued.proc j).qvalue) ∧ (∃ j, firstQueued.proc.searched .frr j = true) ∧
    ∃ s', Lts.exec (step .frr 1) (go 0 NPROC) firstQueued = some s' ∧ ¬ MediumLeast .frr s'.proc (s'.cpu 0).loc := by
  refine ⟨by decide, ⟨initproc, by decide⟩, ?_⟩
  have hrun : (Lts.exec (step .frr 1) (go 0 NPROC) firstQueued).any (fun s' => (s'.cpu 0).loc.medium == some secondproc.val &&
      s'.proc.searched .frr initproc && (s'.proc initproc).qvalue == 0 && (s'.proc secondproc).qvalue == 5) = true := by decide +kernel
  rw [Option.any_eq_true] at hrun
  obtain ⟨s', he, hs'⟩ := hrun
  simp only [Bool.and_eq_true, beq_iff_eq] at hs'
  obtain ⟨⟨⟨hm, h0⟩, hq0⟩, hq1⟩ := hs'
  refine ⟨s', he, ?_⟩
  rintro ⟨i, hi, -, -, hmin⟩
  have hi1 : i = secondproc := Fin.ext (Option.some.inj (hi.symm.trans hm))
  have hle := hmin initproc h0
  rw [hi1, hq0, hq1] at hle
  omega

/-- The end of the scan and the choice. -/
lemma choose_exec {w : Slot} (hc : c < ncpu) (h : Scanning s c (choose :: rest) NPROC)
    (hw : (s.cpu c).loc.chosen flag s.proc = some w) :
    ∃ s', Lts.exec (step flag ncpu) (go c 2) s = some s' ∧ (s'.cpu c).proc = some w := by
  set u : State := s.setOps c (choose :: rest) with hu
  have hu1 : step flag ncpu ⟨c, .exec .go⟩ s = some u := by
    rw [step_go hc h.panicked ((ops_of_none h.proc).trans h.ops)]
    simp [execOp, hu]
  have huo : u.ops c = choose :: rest := (threadStep_ops s c (choose :: rest)).ops
  have hul : (u.cpu c).loc = (s.cpu c).loc := by simp [hu, State.setOps_self]
  have hupr : u.proc = s.proc := by simp [hu, State.proc]
  have hupan : u.panicked = false := by
    simp only [hu, State.setOps, h.proc]
    exact h.panicked
  have hu2 : step flag ncpu ⟨c, .exec .go⟩ u =
      some ((u.scanned c rest ((u.cpu c).loc.pick flag u.proc) u.proc).dispatch c w) := by
    rw [step_go hc hupan huo]
    simp only [execOp]
    rw [hul, hupr, hw]
  refine ⟨(u.scanned c rest ((u.cpu c).loc.pick flag u.proc) u.proc).dispatch c w, ?_, ?_⟩
  · simp only [go, List.replicate, Lts.exec, hu1, hu2, Option.bind_some]
  · simp [State.dispatch]

section grt

/-- What the search of the `GRT` label has found after `k` visits. -/
structure HighScan (tbl₀ : Table) (now : ℤ) (start k : ℕ) (l : SchedLocals) (tbl : Table) : Prop where
  slot : l.slot = slotAt start k
  currentime : l.currentime = now
  found : Found (fun j => (grtQvalue now (tbl₀ j)).toNat) l.grtMin l.high (inOrder .grt tbl₀ start k)
  searched : ∀ j, tbl.searched .grt j = tbl₀.searched .grt j
  quotient : ∀ j, grtQvalue now (tbl j) = grtQvalue now (tbl₀ j)

lemma visit_high : ((visit .grt l tbl).1.grtMin, (visit .grt l tbl).1.high) =
    if tbl.searched .grt l.slot then minStep l.grtMin l.high l.slot (grtQvalue l.currentime (tbl l.slot)) else (l.grtMin, l.high) := by
  simp only [visit, Table.searched]
  by_cases hr : (tbl l.slot).state = .runnable
  · simp [hr, grtCase, minGrt_eq, SchedLocals.advance]
  · simp [hr, SchedLocals.advance]

lemma visit_currentime : (visit .grt l tbl).1.currentime = l.currentime := by
  unfold visit
  dsimp only [grtCase]
  split_ifs
  · rfl
  · rw [minGrt_eq]
    rfl

/-- The quotient is computed from `rtime` and `ctime` alone, or it is the old `qvalue`. -/
lemma visit_quotient (j : Slot) : grtQvalue l.currentime ((visit .grt l tbl).2.1 j) = grtQvalue l.currentime (tbl j) := by
  unfold visit
  dsimp only [grtCase]
  split_ifs
  · rfl
  · simp only [Table.set]
    split_ifs with hj
    · unfold grtQvalue
      dsimp only
      split_ifs <;> rfl
    · rfl

lemma HighScan.visit {tbl₀ : Table} (hs : HighScan tbl₀ now start k l tbl)
    (hq : ∀ j, tbl₀.searched .grt j = true → 0 ≤ grtQvalue now (tbl₀ j) ∧ grtQvalue now (tbl₀ j) < 4294967296) :
    HighScan tbl₀ now start (k + 1) (visit .grt l tbl).1 (visit .grt l tbl).2.1 := by
  have hhigh := @visit_high l tbl
  rw [hs.searched, hs.slot, hs.currentime, hs.quotient] at hhigh
  refine ⟨visit_slot hs.slot, visit_currentime.trans hs.currentime, ?_, fun j => (visit_searched j).trans (hs.searched j), fun j => ?_⟩
  · rw [inOrder_succ]
    by_cases hc : tbl₀.searched .grt (slotAt start k) = true
    · rw [if_pos hc] at hhigh
      rw [if_pos hc, (Prod.mk.inj hhigh).1, (Prod.mk.inj hhigh).2]
      exact hs.found.step (hq _ hc) rfl
    · rw [if_neg hc] at hhigh
      rw [if_neg hc, List.append_nil, (Prod.mk.inj hhigh).1, (Prod.mk.inj hhigh).2]
      exact hs.found
  · rw [← hs.currentime, visit_quotient, hs.currentime, hs.quotient]

lemma visits_highScan {tbl₀ : Table}
    (hq : ∀ j, tbl₀.searched .grt j = true → 0 ≤ grtQvalue now (tbl₀ j) ∧ grtQvalue now (tbl₀ j) < 4294967296) (k i : ℕ)
    (h : HighScan tbl₀ now start i l tbl) : HighScan tbl₀ now start (i + k) (visits .grt k l tbl).1 (visits .grt k l tbl).2 := by
  induction k generalizing i l tbl with
  | zero => exact h
  | succ k ih =>
    have := ih (i + 1) (h.visit hq)
    rwa [Nat.add_assoc, Nat.add_comm 1 k] at this

/-- The share of the CPU that a process has had in its life; a process of this tick has had none. -/
def share (now : ℤ) (p : Proc) : ℚ := p.rtime / (now - p.ctime : ℤ)

/-- The times of a `RUNNABLE` process at tick `now`: it cannot have run for longer than it lives, and the difference of the
ticks is an `int`. A process of this tick keeps its `qvalue`, a number of ticks. -/
structure Aged (now : ℤ) (p : Proc) : Prop where
  rtime : 0 ≤ p.rtime ∧ p.rtime ≤ now - p.ctime
  life : now - p.ctime < 2147483648
  qvalue : p.ctime = now → 0 ≤ p.qvalue ∧ p.qvalue < 4294967296

/-- The process has not had the CPU all its life; one of this tick counts as such if its `qvalue` is 0. -/
def Proc.Low (now : ℤ) (p : Proc) : Prop := if p.ctime = now then p.qvalue = 0 else p.rtime < now - p.ctime

instance (p : Proc) : Decidable (p.Low now) := inferInstanceAs (Decidable (ite _ _ _))

/-- The process has had the CPU all its life. -/
def Proc.Full (now : ℤ) (p : Proc) : Prop := p.ctime ≠ now ∧ p.rtime = now - p.ctime

instance (p : Proc) : Decidable (p.Full now) := inferInstanceAs (Decidable (_ ∧ _))

/-- The quotient that the `GRT` label stores. -/
lemma Aged.grtQvalue {p : Proc} (h : Aged now p) :
    grtQvalue now p = if p.ctime = now then p.qvalue else if p.rtime < now - p.ctime then 0 else 1 := by
  unfold Os132.grtQvalue
  by_cases hn : p.ctime = now
  · rw [if_neg (not_not.2 hn), if_pos hn]
  · obtain ⟨h0, h1⟩ := h.rtime
    have hl := h.life
    have hpos : 0 < now - p.ctime := by omega
    have hint : ∀ x : ℤ, 0 ≤ x → x < 2147483648 → int32 x = x := by
      intro x hx0 hx1
      unfold int32
      rw [Int.bmod_def]
      omega
    rw [if_pos hn, if_neg hn, hint (now - p.ctime) hpos.le hl, Int.tdiv_eq_ediv_of_nonneg h0]
    split_ifs with hlt
    · rw [Int.ediv_eq_zero_of_lt h0 hlt]
      exact hint 0 le_rfl (by decide)
    · rw [show p.rtime = now - p.ctime by omega, Int.ediv_self hpos.ne']
      exact hint 1 (by decide) (by decide)

lemma Aged.quotient {p : Proc} (h : Aged now p) : 0 ≤ Os132.grtQvalue now p ∧ Os132.grtQvalue now p < 4294967296 := by
  rw [h.grtQvalue]
  split_ifs with hn
  · exact h.qvalue hn
  · exact ⟨le_rfl, by decide⟩
  · exact ⟨by decide, by decide⟩

section

variable {p : Proc}

lemma Aged.zero_iff (h : Aged now p) : (Os132.grtQvalue now p).toNat = 0 ↔ p.Low now := by
  have hq := h.qvalue
  rw [h.grtQvalue, Proc.Low]
  split_ifs with hn hlt
  · have := hq hn
    omega
  · simp [hlt]
  · simp [hlt]

/-- Behind the last process that is `Low`, the quotient is 1 for those that have had the CPU all their lives, and for the new
ones with that `qvalue`. -/
lemma Aged.one_iff (h : Aged now p) (hlow : ¬ p.Low now) :
    (Os132.grtQvalue now p).toNat = 1 ↔ p.Full now ∨ p.qvalue = 1 := by
  have hr := h.rtime
  rw [h.grtQvalue]
  unfold Proc.Low at hlow
  unfold Proc.Full
  split_ifs at hlow ⊢ with hn
  · have := h.qvalue hn
    constructor
    · exact fun h1 => Or.inr (by omega)
    · rintro (hf | h1)
      · exact absurd hn hf.1
      · omega
  · exact iff_of_true rfl (Or.inl ⟨hn, by omega⟩)

lemma Aged.full (h : Aged now p) (hlow : ¬ p.Low now) (hn : p.ctime ≠ now) : p.Full now := by
  have hr := h.rtime
  unfold Proc.Low at hlow
  rw [if_neg hn] at hlow
  exact ⟨hn, by omega⟩

lemma share_new (hn : p.ctime = now) : share now p = 0 := by
  simp [share, hn]

lemma Proc.Full.share (h : p.Full now) : share now p = 1 := by
  have hne : ((now - p.ctime : ℤ) : ℚ) ≠ 0 := by
    rw [Int.cast_ne_zero]
    exact fun h0 => h.1 (by omega)
  rw [Os132.share, h.2]
  exact div_self hne

lemma Aged.share_nonneg (h : Aged now p) : 0 ≤ share now p :=
  div_nonneg (by exact_mod_cast h.rtime.1) (by exact_mod_cast h.rtime.1.trans h.rtime.2)

lemma Aged.share_lt_one (h : Aged now p) (hf : ¬ p.Full now) : share now p < 1 := by
  by_cases hn : p.ctime = now
  · rw [share_new hn]
    exact zero_lt_one
  · have hr := h.rtime
    have hlt : p.rtime < now - p.ctime := by
      by_contra hge
      exact hf ⟨hn, by omega⟩
    have hpos : (0 : ℚ) < ((now - p.ctime : ℤ) : ℚ) := by
      rw [Int.cast_pos]
      omega
    rw [share, div_lt_one hpos]
    exact_mod_cast hlt

end

/-- The `RUNNABLE` processes in the order of the scan are such that the least share is found. If the last one is `Low`, it has
the least share. Otherwise either all have had the CPU all their lives, or behind the last one that is `Low` the first one with
quotient 1, if there is any, is of this tick. -/
def FairEnd (tbl : Table) (now : ℤ) (start : ℕ) : Prop :=
  let order := inOrder .grt tbl start NPROC
  let behind := order.rtakeWhile fun x => ¬ (tbl x).Low now
  if behind = [] then ∀ z ∈ order.getLast?, ∀ j, (tbl j).state = .runnable → share now (tbl z) ≤ share now (tbl j)
  else (∀ x ∈ order, (tbl x).Full now) ∨
    ∀ x ∈ behind.find? (fun x => (tbl x).Full now ∨ (tbl x).qvalue = 1), (tbl x).ctime = now

/-- The winner has had the least share exactly then. -/
lemma fairEnd_iff {a b : List Slot} {w : Slot} (hage : ∀ j, (tbl j).state = .runnable → Aged now (tbl j))
    (horder : inOrder .grt tbl start NPROC = a ++ w :: b)
    (hw : Search.Wins (fun j => (grtQvalue now (tbl j)).toNat) a w b) :
    (∀ j, (tbl j).state = .runnable → share now (tbl w) ≤ share now (tbl j)) ↔ FairEnd tbl now start := by
  have hmem : ∀ x, x ∈ inOrder .grt tbl start NPROC ↔ (tbl x).state = .runnable := fun x => by
    rw [mem_inOrder]
    simp [Table.searched]
  have hmaged : ∀ x ∈ inOrder .grt tbl start NPROC, Aged now (tbl x) := fun x hx => hage x ((hmem x).1 hx)
  unfold FairEnd
  dsimp only
  set order := inOrder .grt tbl start NPROC with ho
  set behind := order.rtakeWhile fun x => ¬ (tbl x).Low now with hb
  set front := order.rdropWhile fun x => ¬ (tbl x).Low now with hf
  have hsplit : front ++ behind = order := List.rdropWhile_append_rtakeWhile
  have hbehind : ∀ x ∈ behind, ¬ (tbl x).Low now := fun x hx => by simpa using List.mem_rtakeWhile_imp hx
  have hsub : ∀ x ∈ behind, x ∈ order := fun x hx => hsplit ▸ List.mem_append_right _ hx
  have hfront : ∀ z ∈ front.getLast?, (grtQvalue now (tbl z)).toNat = 0 := by
    intro z hz
    have hne : front ≠ [] := by
      rintro h0
      rw [h0] at hz
      cases hz
    have hlow : (tbl (front.getLast hne)).Low now := by simpa [hf] using List.rdropWhile_last_not _ order hne
    rw [List.getLast?_eq_some_getLast hne] at hz
    obtain rfl := Option.some.inj hz
    have hin : front.getLast hne ∈ order := hsplit ▸ List.mem_append_left _ (List.getLast_mem hne)
    exact (hmaged _ hin).zero_iff.2 hlow
  split_ifs with hnil
  · -- the last one empties the search
    have hz : order.getLast? = some w := by
      rw [hnil, List.append_nil] at hsplit
      rw [hsplit] at hfront
      have hb0 : b = [] := by
        by_contra hb0
        have hlast : order.getLast? = some (b.getLast hb0) := by
          rw [horder, List.getLast?_append, List.getLast?_cons, List.getLast?_eq_some_getLast hb0]
          rfl
        exact (hw.after _ (List.getLast_mem hb0)).1 (hfront _ hlast)
      rw [horder, hb0, List.getLast?_append]
      rfl
    rw [hz]
    simp
  · obtain ⟨b₁, v, b₂, hv, hwin⟩ := Search.exists_wins (q := fun j => (grtQvalue now (tbl j)).toNat) hnil
    obtain rfl : v = w := (hwin.behind hfront).unique hw (by rw [← horder, ← hsplit, hv]; simp)
    have hvb : v ∈ behind := by
      rw [hv]
      simp
    have hvage := hmaged v (hsub v hvb)
    have hne : ∀ x ∈ behind, (grtQvalue now (tbl x)).toNat ≠ 0 := fun x hx h0 => hbehind x hx ((hmaged x (hsub x hx)).zero_iff.1 h0)
    have hmin : ∀ x ∈ behind, (grtQvalue now (tbl v)).toNat ≤ (grtQvalue now (tbl x)).toNat := by
      rw [hv] at hne ⊢
      exact hwin.least_iff.2 (Or.inl hne)
    have hlt : ∀ x ∈ b₁, (grtQvalue now (tbl v)).toNat < (grtQvalue now (tbl x)).toNat := by
      intro x hx
      obtain ⟨c₁, c₂, hc⟩ := List.append_of_mem hx
      rcases hwin.before (hne v hvb) c₁ x c₂ hc with h | ⟨y, hy, hy0⟩
      · exact h
      · refine absurd hy0 (hne y ?_)
        rw [hv, hc]
        simp only [List.mem_append, List.mem_cons] at hy ⊢
        tauto
    have hone : ∀ x ∈ behind, (grtQvalue now (tbl x)).toNat = 1 ↔ (tbl x).Full now ∨ (tbl x).qvalue = 1 :=
      fun x hx => (hmaged x (hsub x hx)).one_iff (hbehind x hx)
    have hpos := Nat.pos_of_ne_zero (hne v hvb)
    by_cases hv1 : (grtQvalue now (tbl v)).toNat = 1
    · have hfind : behind.find? (fun x => (tbl x).Full now ∨ (tbl x).qvalue = 1) = some v := by
        rw [List.find?_eq_some_iff_append]
        refine ⟨by simpa using (hone v hvb).1 hv1, b₁, b₂, hv, fun x hx => ?_⟩
        have hxb : x ∈ behind := by
          rw [hv]
          simp [hx]
        have := hlt x hx
        simpa using fun h => (by omega : (grtQvalue now (tbl x)).toNat ≠ 1) ((hone x hxb).2 h)
      rw [hfind]
      by_cases hnew : (tbl v).ctime = now
      · refine iff_of_true (fun j hj => ?_) (Or.inr (by simpa using hnew))
        rw [share_new hnew]
        exact (hage j hj).share_nonneg
      · have hfull := hvage.full (hbehind v hvb) hnew
        constructor
        · intro hleast
          refine Or.inl fun x hx => ?_
          by_contra hxf
          have h1 := hleast x ((hmem x).1 hx)
          rw [hfull.share] at h1
          exact absurd ((hmaged x hx).share_lt_one hxf) (not_lt.2 h1)
        · rintro (hall | hborn)
          · intro j hj
            rw [hfull.share, (hall j ((hmem j).2 hj)).share]
          · exact absurd (hborn v rfl) hnew
    · have hnew : (tbl v).ctime = now := by
        by_contra hn
        exact hv1 ((hone v hvb).2 (Or.inl (hvage.full (hbehind v hvb) hn)))
      refine iff_of_true (fun j hj => ?_) (Or.inr fun x hx => ?_)
      · rw [share_new hnew]
        exact (hage j hj).share_nonneg
      · have hxb := List.mem_of_find?_eq_some hx
        have hx1 := (hone x hxb).2 (by simpa using List.find?_some hx)
        have := hmin x hxb
        omega

/-- A pass under `_GRT` switches to a `RUNNABLE` process, which has had the least share of the CPU if and only if the times of
the `RUNNABLE` processes, in the order of the scan, are such that truncated quotients and 0 as "none yet" do no harm. -/
theorem grt_least_iff (hc : c < ncpu) (hs : Scanning s c (choose :: rest) 0) (l : SchedLocals) (now : ℤ)
    (hl : (s.cpu c).loc = { l.top with currentime := now }) (hage : ∀ j, (s.proc j).state = .runnable → Aged now (s.proc j))
    (hsome : ∃ j, (s.proc j).state = .runnable) :
    ∃ s' w, Lts.exec (step .grt ncpu) (go c (NPROC + 2)) s = some s' ∧ (s'.cpu c).proc = some w ∧ (s.proc w).state = .runnable ∧
      ((∀ j, (s.proc j).state = .runnable → share now (s.proc w) ≤ share now (s.proc j)) ↔ FairEnd s.proc now l.top.wrap) := by
  have hclass : ∀ j, s.proc.searched .grt j = true ↔ (s.proc j).state = .runnable := by simp [Table.searched]
  obtain ⟨t, he, ht, hloc, hproc⟩ := @scanning_exec .grt ncpu s c (choose :: rest) (by simp) hc (go c 2) NPROC 0 (Nat.zero_add _) hs
  have hq : ∀ j, s.proc.searched .grt j = true → 0 ≤ grtQvalue now (s.proc j) ∧ grtQvalue now (s.proc j) < 4294967296 :=
    fun j hj => (hage j ((hclass j).1 hj)).quotient
  have htop : HighScan s.proc now l.top.wrap 0 { l.top with currentime := now } s.proc :=
    ⟨slotAt_zero l.top, rfl, ⟨(top_resets l).2, fun h => absurd rfl h⟩, fun _ => rfl, fun _ => rfl⟩
  have hscan := visits_highScan hq NPROC 0 htop
  rw [Nat.zero_add, ← hl, ← hloc, ← hproc] at hscan
  have hne : inOrder .grt s.proc l.top.wrap NPROC ≠ [] := by
    obtain ⟨j, hj⟩ := hsome
    exact List.ne_nil_of_mem (mem_inOrder.2 ((hclass j).2 hj))
  obtain ⟨a, w, b, horder, hw⟩ := Search.exists_wins (q := fun j => (grtQvalue now (s.proc j)).toNat) hne
  have hhigh : (t.cpu c).loc.high = some w.val := by
    rw [hscan.found.holder hne, horder, hw.run]
    rfl
  have hwr : (s.proc w).state = .runnable := by
    rw [← hclass, ← @mem_inOrder .grt s.proc l.top.wrap, horder]
    simp
  have hwt : (t.proc w).state = .runnable := runnable_of_searched ((hscan.searched w).trans ((hclass w).2 hwr))
  have hchosen : (t.cpu c).loc.chosen .grt t.proc = some w := by
    simp [SchedLocals.chosen, SchedLocals.pick, runnableAt, hhigh, hwt]
  obtain ⟨s', he', hw'⟩ := @choose_exec .grt ncpu t c rest w hc ht hchosen
  refine ⟨s', w, ?_, hw', hwr, fairEnd_iff hage horder hw⟩
  rw [show go c (NPROC + 2) = go c NPROC ++ go c 2 by simp [go, List.replicate_add], he, he']

/-- Two processes of ten ticks, one of which has run for 3 and one for 9. -/
def unequalShares : State := pairScan { state := .runnable, rtime := 3 } { state := .runnable, rtime := 9 } 10

lemma aged_unequalShares (j : Slot) (hj : (unequalShares.proc j).state = .runnable) : Aged 10 (unequalShares.proc j) := by
  by_cases h0 : j = initproc
  · subst h0
    exact ⟨by decide, by decide, by decide⟩
  · by_cases h1 : j = secondproc
    · subst h1
      exact ⟨by decide, by decide, by decide⟩
    · have hproc : unequalShares.proc j = {} := by
        change (if j = initproc then _ else if j = secondproc then _ else _) = _
        rw [if_neg h0, if_neg h1]
      rw [hproc] at hj
      cases hj

theorem grt_least_iff_unequalShares :
    ∃ s' w, Lts.exec (step .grt 1) (go 0 (NPROC + 2)) unequalShares = some s' ∧ (s'.cpu 0).proc = some w ∧
      (unequalShares.proc w).state = .runnable ∧ ((∀ j, (unequalShares.proc j).state = .runnable →
        share 10 (unequalShares.proc w) ≤ share 10 (unequalShares.proc j)) ↔
          FairEnd unequalShares.proc 10 ({} : SchedLocals).top.wrap) :=
  grt_least_iff (by decide) ⟨rfl, rfl, rfl⟩ {} 10 rfl aged_unequalShares ⟨initproc, rfl⟩

/-- Both quotients are 0, so the second process takes the place of the first. -/
theorem grt_not_least : (∀ j, (unequalShares.proc j).state = .runnable → Aged 10 (unequalShares.proc j)) ∧
    ∃ s', Lts.exec (step .grt 1) (go 0 (NPROC + 2)) unequalShares = some s' ∧ (s'.cpu 0).proc = some secondproc ∧
      (unequalShares.proc initproc).state = .runnable ∧ share 10 (unequalShares.proc initproc) < share 10 (unequalShares.proc secondproc) := by
  refine ⟨aged_unequalShares, ?_⟩
  have hrun : (Lts.exec (step .grt 1) (go 0 (NPROC + 2)) unequalShares).any (fun s' => (s'.cpu 0).proc == some secondproc) = true := by
    decide +kernel
  rw [Option.any_eq_true] at hrun
  obtain ⟨s', he, hs'⟩ := hrun
  refine ⟨s', he, by simpa using hs', rfl, ?_⟩
  have h0 : share 10 (unequalShares.proc initproc) = 3 / 10 := by
    simp [share, unequalShares, pairScan, State.proc]
  have hne : secondproc ≠ initproc := by decide
  have h1 : share 10 (unequalShares.proc secondproc) = 9 / 10 := by
    simp [share, unequalShares, pairScan, State.proc, hne]
  rw [h0, h1]
  norm_num

end grt

end Os132

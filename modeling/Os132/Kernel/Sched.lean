import Os132.Kernel.Ops

/-!
# The choice of `scheduler`

The local variables of `scheduler`, the body of its scan loop and the choice after the scan.
A process pointer is an index: `NPROC` is the address one past the table. No entry outside the
table is ever `RUNNABLE`, and neither is an unassigned pointer.
-/

namespace Os132

/-- The local variables of `scheduler`. -/
structure SchedLocals where
  t : Nat := 0
  head : Option Nat := none
  p : Option Nat := none
  high : Option Nat := none
  medium : Option Nat := none
  currentime : Int := 0
  highflag : Bool := false
  mediumflag : Bool := false
  lowflag : Bool := false
  frrMin : Nat := 0
  grtMin : Nat := 0
  deriving DecidableEq, Repr

namespace SchedLocals

/-- The assignments at the top of the loop: the scan starts after the process that ran, if it
is the one `head` points to, and at `head` otherwise. -/
def top (l : SchedLocals) : SchedLocals :=
  let l := { l with highflag := false, mediumflag := false, lowflag := false, frrMin := 0, grtMin := 0 }
  match l.head with
  | none => l
  | some h => if l.p = some h then { l with head := some (h + 1), t := h + 1 } else { l with t := h }

/-- The address of `t` after the test against the end of the table. -/
def wrap (l : SchedLocals) : Nat := if l.t ≥ NPROC then 0 else l.t

lemma wrap_lt (l : SchedLocals) : l.wrap < NPROC := by
  unfold wrap
  split_ifs with h
  · decide
  · omega

/-- The slot that the next iteration of the scan looks at. -/
def slot (l : SchedLocals) : Slot := ⟨l.wrap, l.wrap_lt⟩

/-- `t++`. -/
def advance (l : SchedLocals) : SchedLocals := { l with t := l.wrap + 1 }

/-- The running minimum of the `FRR` label. -/
def minFrr (l : SchedLocals) (i : Slot) (q : Int) : SchedLocals :=
  if l.frrMin = 0 then { l with frrMin := uint32 q, medium := some i }
  else if q < l.frrMin then { l with frrMin := uint32 q, medium := some i }
  else l

/-- The running minimum of the `GRT` label. -/
def minGrt (l : SchedLocals) (i : Slot) (q : Int) : SchedLocals :=
  if l.grtMin = 0 then { l with grtMin := uint32 q, high := some i }
  else if q < l.grtMin then { l with grtMin := uint32 q, high := some i }
  else l

end SchedLocals

/-- The value that the `GRT` label leaves in `qvalue`. -/
def grtQvalue (currentime : Int) (p : Proc) : Int :=
  if p.ctime ≠ currentime then int32 (Int.tdiv p.rtime (int32 (currentime - p.ctime))) else p.qvalue

/-- The code at the label `FRR`, for `t` at slot `i`. -/
def frrCase (i : Slot) (l : SchedLocals) (tbl : Table) : SchedLocals × Table :=
  (l.minFrr i (tbl i).qvalue, tbl.set i fun p => { p with quanta := QUANTA })

/-- The code at the label `GRT`, for `t` at slot `i`. -/
def grtCase (i : Slot) (l : SchedLocals) (tbl : Table) : SchedLocals × Table :=
  (l.minGrt i (grtQvalue l.currentime (tbl i)),
    tbl.set i fun p => { p with qvalue := grtQvalue l.currentime p })

/-- The case `_3Q`, for `t` at slot `i`. -/
def q3Case (i : Slot) (l : SchedLocals) (tbl : Table) : SchedLocals × Table :=
  if (tbl i).priority = HIGH ∨ (tbl i).priority = 0 then grtCase i { l with highflag := true } tbl
  else if (tbl i).priority = MEDIUM then frrCase i { l with mediumflag := true } tbl
  else if !l.lowflag && (tbl i).priority = LOW then
    ({ l with head := some i, lowflag := true }, tbl.set i fun p => { p with quanta := QUANTA })
  else (l, tbl)

/-- One iteration of the scan. The result says whether it switches to the process at the slot,
which happens only under `_RR`. -/
def visit (flag : SchedFlag) (l : SchedLocals) (tbl : Table) : SchedLocals × Table × Bool :=
  let i := l.slot
  if (tbl i).state ≠ .runnable then (l.advance, tbl, false)
  else
    match flag with
    | .rr => ({ l with p := some i }.advance, tbl.set i fun p => { p with quanta := QUANTA }, true)
    | .frr => let r := frrCase i l tbl; (r.1.advance, r.2, false)
    | .grt => let r := grtCase i l tbl; (r.1.advance, r.2, false)
    | .q3 => let r := q3Case i l tbl; (r.1.advance, r.2, false)

/-- The record a pointer points to, if it is in the table and `RUNNABLE`. -/
def runnableAt (tbl : Table) (x : Option Nat) : Option Slot :=
  x.bind fun i => if h : i < NPROC then
    (if (tbl ⟨i, h⟩).state = .runnable then some ⟨i, h⟩ else none) else none

/-- The assignment to `p` after the scan. -/
def SchedLocals.pick (flag : SchedFlag) (l : SchedLocals) (tbl : Table) : SchedLocals :=
  match flag with
  | .rr => l
  | .frr => { l with p := l.medium }
  | .grt => { l with p := l.high }
  | .q3 =>
    if l.highflag && l.high.isSome then { l with p := l.high }
    else if l.mediumflag && l.medium.isSome then { l with p := l.medium }
    else if (runnableAt tbl l.head).isSome then { l with p := l.head }
    else l

/-- The process that `scheduler` switches to after the scan. -/
def SchedLocals.chosen (flag : SchedFlag) (l : SchedLocals) (tbl : Table) : Option Slot :=
  if flag = .rr then none else runnableAt tbl (l.pick flag tbl).p

/-- A visit rewrites `quanta` and `qvalue` only. -/
lemma visit_field {α : Type} (flag : SchedFlag) (l : SchedLocals) (tbl : Table) (j : Slot) (field : Proc → α)
    (h : ∀ p a b, field { p with quanta := a, qvalue := b } = field p) :
    field ((visit flag l tbl).2.1 j) = field (tbl j) := by
  have hq (i : Slot) : field (tbl.set i (fun p => { p with quanta := QUANTA }) j) = field (tbl j) :=
    tbl.set_field i j _ field fun p => h p QUANTA p.qvalue
  have hg (i : Slot) (l : SchedLocals) : field ((grtCase i l tbl).2 j) = field (tbl j) :=
    tbl.set_field i j _ field fun p => h p p.quanta _
  unfold visit
  dsimp only
  split_ifs
  · rfl
  · cases flag
    case rr => exact hq _
    case frr => exact hq _
    case grt => exact hg _ _
    case q3 =>
      dsimp only [q3Case]
      split_ifs
      · exact hg _ _
      · exact hq _
      · exact hq _
      · rfl

/-- A visit rewrites the record of the slot it visits only, and only if that is `RUNNABLE`. -/
lemma visit_proc (flag : SchedFlag) (l : SchedLocals) (tbl : Table) (j : Slot) :
    (visit flag l tbl).2.1 j = tbl j ∨ j = l.slot ∧ (tbl j).state = .runnable ∧
      ∃ a b, (visit flag l tbl).2.1 j = { tbl j with quanta := a, qvalue := b } := by
  by_cases hr : (tbl l.slot).state = .runnable
  swap
  · left
    simp [visit, hr]
  by_cases hj : j = l.slot
  · right
    subst hj
    refine ⟨rfl, hr, ?_⟩
    unfold visit
    dsimp only
    rw [if_neg (by simpa using hr)]
    have hq : ∃ a b, tbl.set l.slot (fun p => { p with quanta := QUANTA }) l.slot =
        { tbl l.slot with quanta := a, qvalue := b } := ⟨QUANTA, (tbl l.slot).qvalue, tbl.set_self _ _⟩
    have hg (l' : SchedLocals) : ∃ a b, (grtCase l.slot l' tbl).2 l.slot =
        { tbl l.slot with quanta := a, qvalue := b } :=
      ⟨(tbl l.slot).quanta, grtQvalue l'.currentime (tbl l.slot), by simp [grtCase]⟩
    cases flag
    case rr => exact hq
    case frr => exact hq
    case grt => exact hg l
    case q3 =>
      dsimp only [q3Case]
      split_ifs
      · exact hg _
      · exact hq
      · exact hq
      · exact ⟨(tbl l.slot).quanta, (tbl l.slot).qvalue, rfl⟩
  · left
    have hne (f : Proc → Proc) : tbl.set l.slot f j = tbl j := tbl.set_of_ne f hj
    unfold visit
    dsimp only
    rw [if_neg (by simpa using hr)]
    cases flag
    case q3 =>
      dsimp only [q3Case]
      split_ifs <;> simp [frrCase, grtCase, hne]
    all_goals simp [frrCase, grtCase, hne]

lemma visit_switch {flag : SchedFlag} {l : SchedLocals} {tbl : Table} (h : (visit flag l tbl).2.2 = true) :
    flag = .rr ∧ (tbl l.slot).state = .runnable := by
  unfold visit at h
  dsimp only at h
  split_ifs at h with hs
  refine ⟨?_, by simpa using hs⟩
  cases flag <;> simp_all

lemma runnableAt_some {tbl : Table} {x : Option Nat} {i : Slot} (h : runnableAt tbl x = some i) :
    x = some i.val ∧ (tbl i).state = .runnable := by
  unfold runnableAt at h
  obtain ⟨k, rfl, hk⟩ := Option.bind_eq_some_iff.mp h
  split_ifs at hk with h1 h2
  obtain rfl := Option.some.inj hk
  exact ⟨rfl, h2⟩

lemma SchedLocals.chosen_runnable {flag : SchedFlag} {l : SchedLocals} {tbl : Table} {i : Slot}
    (h : l.chosen flag tbl = some i) : (tbl i).state = .runnable := by
  unfold SchedLocals.chosen at h
  split_ifs at h
  exact (runnableAt_some h).2

end Os132

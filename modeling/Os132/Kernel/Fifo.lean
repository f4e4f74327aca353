import Os132.Kernel.Rounds
import Os132.Kernel.Stamps

/-!
# The queue of `_FRR`

The queue exists in the stamps only: `fork` and `yield` set `qvalue`, `wakeup1` and `kill` make a process
`RUNNABLE` with an old one, and the search for the least takes 0 for "none yet". `since` tells when a process
came, whatever its stamp says; `Timed` says that a process that was not woken is stamped with that tick.
-/

namespace Os132

open Op

variable {flag : SchedFlag} {l : SchedLocals} {tbl : Table} {start n : ℕ} {p q : Slot}

/-- The ticks that have passed. -/
def elapsed (r : KRun flag 1 n) : ℕ → ℕ
  | 0 => 0
  | k + 1 => elapsed r k + if (r.state (k + 1)).mem.ticks = (r.state k).mem.ticks then 0 else 1

/-- The tick at which `p` became `RUNNABLE` most recently. -/
def since (r : KRun flag 1 n) (p : Slot) : ℕ → ℕ
  | 0 => 0
  | k + 1 => if ((r.state k).proc p).state ≠ .runnable ∧ ((r.state (k + 1)).proc p).state = .runnable then elapsed r k
    else since r p k

/-- No process is dispatched while another one waits since an earlier tick. -/
structure Fifo (r : KRun .frr 1 n) : Prop where
  first : ∀ (p q : Slot) (k : ℕ), k < n → ((r.state k).proc q).state = .runnable → since r q k < since r p k →
    ¬ Dispatches (r.state k) (r.state (k + 1)) 0 p

/-- `p` became `RUNNABLE` most recently out of its sleep, by `wakeup1` or `kill`, which leave the stamp as it is. -/
def Woken (r : KRun flag 1 n) (p : Slot) : ℕ → Prop
  | 0 => False
  | k + 1 =>
    if ((r.state k).proc p).state ≠ .runnable ∧ ((r.state (k + 1)).proc p).state = .runnable then
      ((r.state k).proc p).state = .sleeping
    else Woken r p k

/-- The choice finds no child of an unfinished `fork`; where it finds a process that was woken the stamps happen to
be in the order in which the processes became `RUNNABLE`; and no stamp is 0, or the one that the scan has looked at
last is. -/
structure Stamped (r : KRun .frr 1 n) (k : ℕ) : Prop where
  whole : ∀ p, ((r.state k).proc p).state = .runnable → ¬ Unfinished (r.state k) p
  woken : ∀ p q, ((r.state k).proc p).state = .runnable → ((r.state k).proc q).state = .runnable → Woken r p k ∨ Woken r q k →
    since r q k < since r p k → ((r.state k).proc q).qvalue < ((r.state k).proc p).qvalue
  zero : (∀ p, ((r.state k).proc p).state = .runnable → ((r.state k).proc p).qvalue ≠ 0) ∨
    ∃ p, (inOrder .frr (r.state k).proc ((r.state k).cpu 0).loc.wrap NPROC).getLast? = some p ∧
      ((r.state k).proc p).qvalue = 0

/-- No tick comes between the stores of `fork` to the state of a child and to its `ctime`, and the ticks do not
overflow. -/
structure Timely (r : KRun .frr 1 n) : Prop where
  prompt : ∀ k, k < n → ∀ rest, (r.state k).ops 0 = tick :: rest → ∀ i, ¬ Owes (r.state k) i .ctime
  ticks : ∀ k, k ≤ n → elapsed r k < 2147483648

/-! ### The scan -/

/-- What a scan under `_FRR` keeps, where the stamps are in range. -/
def FrrScan (tbl : Table) (i : ℕ) (l : SchedLocals) : Prop :=
  ∃ tbl₀ start, (∀ p, tbl.searched .frr p = true → 0 ≤ (tbl p).qvalue ∧ (tbl p).qvalue < 4294967296) →
    MediumScan .frr tbl₀ start i l tbl

lemma keeps_frrScan : Keeps .frr (fun _ => True) FrrScan := by
  constructor
  · intro tbl l now _
    exact ⟨tbl, l.top.wrap, fun _ => mediumScan_top .frr tbl l now⟩
  · rintro tbl l now ⟨tbl₀, start, h⟩
    refine ⟨tbl₀, start, fun hq => ?_⟩
    have hm := h hq
    exact ⟨hm.slot, hm.found, hm.searched, hm.qvalue⟩
  · rintro tbl i l ⟨tbl₀, start, h⟩
    refine ⟨tbl₀, start, fun hq => ?_⟩
    have hq' : ∀ p, tbl.searched .frr p = true → 0 ≤ (tbl p).qvalue ∧ (tbl p).qvalue < 4294967296 := by
      intro p hp
      have := hq p ((visit_searched p).trans hp)
      rwa [visit_qvalue (Or.inl rfl) hp] at this
    have hm := h hq'
    apply hm.visit (Or.inl rfl)
    intro p hp
    rw [← hm.qvalue p hp]
    exact hq' p ((hm.searched p).trans hp)

lemma inOrder_congr {tbl' : Table} {start' : ℕ} (hs : ∀ p, tbl'.searched flag p = tbl.searched flag p)
    (hstart : start' % NPROC = start % NPROC) : inOrder flag tbl' start' NPROC = inOrder flag tbl start NPROC := by
  have hslot : slotAt start' = slotAt start := by
    funext k
    refine Fin.ext ?_
    simp only [slotAt, NPROC] at *
    omega
  have hsearched : tbl'.searched flag = tbl.searched flag := funext hs
  rw [inOrder, inOrder, hslot, hsearched]

/-- The process chosen has the least stamp. -/
lemma frrScan_least (h : FrrScan tbl NPROC l)
    (hq : ∀ p, (tbl p).state = .runnable → 0 ≤ (tbl p).qvalue ∧ (tbl p).qvalue < 4294967296)
    (hz : (∀ p, (tbl p).state = .runnable → (tbl p).qvalue ≠ 0) ∨
      ∃ p, (inOrder .frr tbl l.wrap NPROC).getLast? = some p ∧ (tbl p).qvalue = 0)
    (hp : l.chosen .frr tbl = some p) (hr : (tbl q).state = .runnable) : (tbl p).qvalue ≤ (tbl q).qvalue := by
  obtain ⟨tbl₀, start, hm⟩ := h
  have hm := hm fun j hj => hq j (searched_frr.1 hj)
  have hrun := chosen_runnable hp
  have hmed : l.medium = some p.val := (runnableAt_some hp).1
  have hstart : l.wrap % NPROC = start % NPROC := by
    have := congrArg Fin.val hm.slot
    simp only [SchedLocals.slot, slotAt, NPROC] at this ⊢
    omega
  have horder : inOrder .frr tbl l.wrap NPROC = inOrder .frr tbl₀ start NPROC := inOrder_congr hm.searched hstart
  have hmem : ∀ j, j ∈ inOrder .frr tbl₀ start NPROC ↔ (tbl j).state = .runnable := by
    intro j
    rw [mem_inOrder, ← hm.searched, searched_frr]
  have hkey : ∀ j, (tbl j).state = .runnable → (tbl₀ j).qvalue = (tbl j).qvalue := fun j hj =>
    (hm.qvalue j ((hm.searched j).symm.trans (searched_frr.2 hj))).symm
  obtain ⟨a, w, b, hlist, hw⟩ := Search.exists_wins (q := fun j => (tbl₀ j).qvalue.toNat)
    (List.ne_nil_of_mem ((hmem p).2 hrun))
  have hwp : w = p := by
    have hholder := hm.found.holder (List.ne_nil_of_mem ((hmem p).2 hrun))
    rw [hmed, hlist, hw.run] at hholder
    exact Fin.ext (Option.some.inj hholder).symm
  subst hwp
  rw [horder, hlist] at hz
  have hleast := hw.least_iff.2 ?_ q (by rw [← hlist]; exact (hmem q).2 hr)
  · have hp0 := (hq w hrun).1
    have hq0 := (hq q hr).1
    simp only [hkey w hrun, hkey q hr] at hleast
    omega
  · rcases hz with hz | ⟨j, hj, hj0⟩
    · left
      intro x hx
      have hxr := (hmem x).1 (hlist ▸ hx)
      have := hz x hxr
      have := (hq x hxr).1
      simp only [hkey x hxr]
      omega
    · right
      refine ⟨j, hj, ?_⟩
      have hxr := (hmem j).1 (hlist ▸ List.mem_of_getLast? hj)
      simp only [hkey j hxr, hj0]
      rfl

/-! ### The stamps -/

/-- What holds of the threads and of the children of unfinished `fork`s. -/
structure FrrInv (s : State) (emb : Slot → Option (Slot × ℕ)) (ph : Slot → Phase) : Prop where
  inv : Inv s emb
  fam : Fam s ph
  forking : Forking .frr s emb
  off : OffCpu s
  stamps : ∀ p, Stamps (s.kstk p)
  stamping : Stamping s

lemma frrInv_run (r : KRun .frr 1 n) (hs : ∀ k, k < n → ∀ rest, (r.state k).ops 0 = choose :: rest → Stamped r k) :
    ∀ k, k ≤ n → ∃ emb ph, FrrInv (r.state k) emb ph := by
  intro k hk
  induction k with
  | zero =>
    have hb := r.starts
    exact ⟨_, _, hb.inv, hb.fam, hb.forking, fun i f ⟨p, hm, _⟩ => absurd hm (hb.free p).not_late,
      fun p => (hb.free p).stamps, hb.stamping⟩
  | succ k ih =>
    obtain ⟨emb, ph, h⟩ := ih (by omega)
    have hstep := r.steps k (by omega)
    have hcpu : (r.label k).cpu = 0 := Nat.lt_one_iff.1 (step_kind h.inv hstep).2.2
    obtain ⟨ph', hfam⟩ := h.fam.step h.inv hstep
    refine ⟨_, ph', h.inv.step_inv hstep, hfam, h.forking.step h.inv hstep, ?_, h.forking.stamps_step h.inv h.stamps hstep,
      h.stamping.step h.inv hstep⟩
    refine h.off.step h.inv h.forking (by decide) (fun ch rest i _ ho hc => ?_) hstep
    rw [hcpu] at ho hc
    exact (hs k (by omega) rest ho).whole i (chosen_runnable hc)

lemma int32_natCast {t : ℕ} (h : t < 2147483648) : int32 (t : ℤ) = t := by
  unfold int32
  rw [Int.bmod_def]
  split_ifs <;> omega

/-- As long as they do not overflow, the ticks are those that have passed. -/
lemma ticks_eq (r : KRun .frr 1 n) (ht : ∀ k, k ≤ n → elapsed r k < 2147483648) :
    ∀ k, k ≤ n → (r.state k).mem.ticks = elapsed r k := by
  intro k hk
  induction k with
  | zero => rw [r.starts.mem]; rfl
  | succ k ih =>
    obtain ⟨emb, hi⟩ := run_inv r k (by omega)
    have hold := ih (by omega)
    have hlt := ht k (by omega)
    rcases step_ticks (step_kind hi (r.steps k (by omega))).1 with h | ⟨-, h⟩
    · rw [elapsed, if_pos h, h, hold, Nat.add_zero]
    · have hnew : (r.state (k + 1)).mem.ticks = elapsed r k + 1 := by
        rw [h, hold, uint32]
        omega
      rw [elapsed, if_neg (by omega), hnew]

/-- The stamps of the processes, and what `fork` has yet to store to them. -/
structure Timed (r : KRun .frr 1 n) (k : ℕ) : Prop where
  small : ∀ q, (0 ≤ ((r.state k).proc q).ctime ∧ ((r.state k).proc q).ctime < 2147483648) ∧
    0 ≤ ((r.state k).proc q).qvalue ∧ ((r.state k).proc q).qvalue < 2147483648
  owed : ∀ q, Owes (r.state k) q .ctime → since r q k = elapsed r k
  ctime : ∀ q, Owes (r.state k) q .qvalueCtime → ¬ Owes (r.state k) q .ctime → ((r.state k).proc q).ctime = since r q k
  qvalue : ∀ q, ((r.state k).proc q).state = .runnable → ¬ Owes (r.state k) q .qvalueCtime → ¬ Woken r q k →
    ((r.state k).proc q).qvalue = since r q k

section
variable {r : KRun .frr 1 n} {k : ℕ} {emb : Slot → Option (Slot × ℕ)} {ph : Slot → Phase}

lemma timed_start (r : KRun .frr 1 n) : Timed r 0 := by
  have hb := r.starts
  have hfree : ∀ q f, ¬ Owes (r.state 0) q f := fun q f ⟨p, hm, _⟩ => (hb.free p).not_late hm
  have hzero : ∀ q, ((r.state 0).proc q).ctime = 0 ∧ ((r.state 0).proc q).qvalue = 0 := by
    intro q
    rw [State.proc, hb.mem, userinit]
    dsimp only
    split_ifs <;> exact ⟨rfl, rfl⟩
  refine ⟨fun q => ?_, fun q ho => absurd ho (hfree q _), fun q ho => absurd ho (hfree q _), fun q _ _ _ => ?_⟩
  · rw [(hzero q).1, (hzero q).2]
    decide
  · rw [(hzero q).2]
    rfl

/-- A stamp is a value of the ticks. -/
lemma Timed.small_step (hT : Timed r k) (hk : k < n) (ht : Timely r) (hK : FrrInv (r.state k) emb ph) (q : Slot) :
    (0 ≤ ((r.state (k + 1)).proc q).ctime ∧ ((r.state (k + 1)).proc q).ctime < 2147483648) ∧
      0 ≤ ((r.state (k + 1)).proc q).qvalue ∧ ((r.state (k + 1)).proc q).qvalue < 2147483648 := by
  have hkind := (step_kind hK.inv (r.steps k hk)).1
  have hold := hT.small q
  have hlt := ht.ticks k hk.le
  rw [← ticks_eq r ht.ticks k hk.le] at hlt
  constructor
  · rcases step_ctime hkind q with h | ⟨_, _, -, -, h⟩
    · exact h ▸ hold.1
    · rw [h, int32_natCast hlt]
      omega
  · rcases hK.forking.step_qvalue hkind q with h | ⟨_, -, -, h⟩ | ⟨_, _, -, -, h⟩
    · exact h ▸ hold.2
    · omega
    · exact h ▸ hold.1

/-- While a child waits for its `ctime` the ticks stand still. -/
lemma Timed.owed_step (hT : Timed r k) (hk : k < n) (ht : Timely r) (hK : FrrInv (r.state k) emb ph) (q : Slot)
    (ho : Owes (r.state (k + 1)) q .ctime) (hr : ((r.state (k + 1)).proc q).state = .runnable) :
    since r q (k + 1) = elapsed r (k + 1) := by
  obtain ⟨hkind, -, hcpu⟩ := step_kind hK.inv (r.steps k hk)
  have hstill : (∀ rest, (r.state k).ops (r.label k).cpu ≠ tick :: rest) → elapsed r (k + 1) = elapsed r k := by
    intro hno
    rcases step_ticks hkind with h | ⟨⟨rest, h⟩, -⟩
    · rw [elapsed, if_pos h, Nat.add_zero]
    · exact absurd h (hno rest)
  rcases ho.origin hK.inv hK.forking (r.steps k hk) with ho | ⟨rest, p, ch, hops, -, -, hemb⟩
  · have hrun := (hK.off q _ ho).1
    rw [since, if_neg fun h => h.1 hrun, hT.owed q ho, hstill fun rest h => ?_]
    exact ht.prompt k hk rest ((Nat.lt_one_iff.1 hcpu) ▸ h) q ho
  · rw [since, if_pos ⟨by rw [hemb]; decide, hr⟩, hstill fun rest' h => by simp [hops] at h]

/-- The store to `ctime` comes in the tick in which the child became `RUNNABLE`. -/
lemma Timed.ctime_step (hT : Timed r k) (hk : k < n) (ht : Timely r) (hK : FrrInv (r.state k) emb ph) (q : Slot)
    (ho : Owes (r.state (k + 1)) q .qvalueCtime) (hno : ¬ Owes (r.state (k + 1)) q .ctime) :
    ((r.state (k + 1)).proc q).ctime = since r q (k + 1) := by
  have hstep := r.steps k hk
  rcases ho.origin hK.inv hK.forking hstep with ho | ⟨rest, p, ch, hops, hp, ha, -⟩
  swap
  · exact absurd (hK.forking.owes_published hK.stamps hstep hp ha hops).1 hno
  have hrun := (hK.off q _ ho).1
  rw [since, if_neg fun h => h.1 hrun]
  by_cases hc : Owes (r.state k) q .ctime
  · rcases hc.step hK.inv hK.fam hK.forking hstep with hc' | ⟨rest, p, ch, hops, hp, ha⟩
    · exact absurd hc' hno
    · rw [late_exec hstep hp ha hops, ticks_eq r ht.ticks k hk.le, hT.owed q hc]
      simp only [LateStore.apply]
      exact int32_natCast (ht.ticks k hk.le)
  · rcases step_ctime (step_kind hK.inv hstep).1 q with h | ⟨rest, p, hops, hp, -⟩
    · rw [h, hT.ctime q ho hc]
    · exact absurd ⟨p, hK.forking.owes_of_front hK.inv hp hops (by rw [hrun]; decide)⟩ hc

/-- A process that was not woken has the stamp of the tick in which it became `RUNNABLE`. -/
lemma Timed.qvalue_step (hT : Timed r k) (hk : k < n) (ht : Timely r) (hK : FrrInv (r.state k) emb ph) (q : Slot)
    (hr : ((r.state (k + 1)).proc q).state = .runnable) (hno : ¬ Owes (r.state (k + 1)) q .qvalueCtime)
    (hw : ¬ Woken r q (k + 1)) : ((r.state (k + 1)).proc q).qvalue = since r q (k + 1) := by
  have hstep := r.steps k hk
  obtain ⟨hkind, -, hcpu⟩ := step_kind hK.inv hstep
  have hcpu : (r.label k).cpu = 0 := Nat.lt_one_iff.1 hcpu
  by_cases hrun : ((r.state k).proc q).state = .runnable
  · have hold : ¬ (((r.state k).proc q).state ≠ .runnable ∧ ((r.state (k + 1)).proc q).state = .runnable) := fun h => h.1 hrun
    rw [Woken, if_neg hold] at hw
    rw [since, if_neg hold]
    by_cases ho : Owes (r.state k) q .qvalueCtime
    · rcases ho.step hK.inv hK.fam hK.forking hstep with ho' | ⟨rest, p, ch, hops, hp, ha⟩
      · exact absurd ho' hno
      · have hc := hK.forking.ctime_first hK.inv hK.stamps hp hops (by rw [hrun]; decide)
        rw [late_exec hstep hp ha hops]
        exact hT.ctime q ho hc
    · rcases hK.forking.step_qvalue hkind q with h | ⟨rest, hops, hp, -⟩ | ⟨rest, p, hops, hp, -⟩
      · rw [h, hT.qvalue q hrun ho hw]
      · -- a process that makes a store is `RUNNING`
        have hself := hK.inv.state_of_cur hp (by rw [hops]; rfl)
        rw [hrun] at hself
        cases hself
      · exact absurd ⟨p, hK.forking.owes_of_front hK.inv hp hops (by rw [hrun]; decide)⟩ ho
  · rw [Woken, if_pos ⟨hrun, hr⟩] at hw
    rw [since, if_pos ⟨hrun, hr⟩]
    rcases hkind.becomes_runnable hK.inv hrun hr with hs | ⟨rest, p, ch, ha, hops, hp⟩ | ⟨rest, hops, hp, hq⟩
    · exact absurd hs hw
    · exact absurd (hK.forking.owes_published hK.stamps hstep hp ha hops).2 hno
    · rw [hcpu] at hops hp
      rw [hq, hK.stamping.stamped hp hops, ticks_eq r ht.ticks k hk.le]

lemma timed_run (ht : Timely r) (hs : ∀ k, k < n → ∀ rest, (r.state k).ops 0 = choose :: rest → Stamped r k) :
    ∀ k, k ≤ n → Timed r k := by
  intro k hk
  induction k with
  | zero => exact timed_start r
  | succ k ih =>
    have hT := ih (by omega)
    obtain ⟨emb, ph, hK⟩ := frrInv_run r hs k (by omega)
    obtain ⟨emb', ph', hK'⟩ := frrInv_run r hs (k + 1) hk
    exact ⟨hT.small_step hk ht hK, fun q ho => hT.owed_step hk ht hK q ho (hK'.off q _ ho).1,
      fun q => hT.ctime_step hk ht hK q, fun q => hT.qvalue_step hk ht hK q⟩

end

/-- In a run in which `fork` is never interrupted in the middle of its stores, and every choice finds processes that
`fork` and `yield` have made `RUNNABLE`, or others with stamps in order, the queue is first-in first-out. -/
theorem fifo_of_stamped (r : KRun .frr 1 n) (ht : Timely r)
    (hs : ∀ k, k < n → ∀ rest, (r.state k).ops 0 = choose :: rest → Stamped r k) : Fifo r where
  first p q k hk hq hsince hd := by
    have hf : SchedFlag.frr ≠ .rr := by decide
    have hround := round_run r hf keeps_frrScan (fun _ _ => trivial) (fun _ _ _ => trivial) k (by omega)
    obtain ⟨emb, hi⟩ := run_inv r k (by omega)
    obtain ⟨hc, hp⟩ := Chooses.of_dispatches (hround.step hi hf keeps_frrScan (r.steps k hk)) hd
    obtain ⟨rest, ho⟩ := hc.here
    have hst := hs k hk rest ho
    have hT := timed_run ht hs k hk.le
    have hpr := chosen_runnable hp
    have hrange : ∀ j, ((r.state k).proc j).state = .runnable →
        0 ≤ ((r.state k).proc j).qvalue ∧ ((r.state k).proc j).qvalue < 4294967296 := fun j _ => by
      have := (hT.small j).2
      omega
    have hle := frrScan_least hc.scanned hrange hst.zero hp hq
    by_cases hw : Woken r p k ∨ Woken r q k
    · have hlt := hst.woken p q hpr hq hw hsince
      omega
    · rw [not_or] at hw
      have hp' := hT.qvalue p hpr (fun h => hst.whole p hpr h.unfinished) hw.1
      have hq' := hT.qvalue q hq (fun h => hst.whole q hq h.unfinished) hw.2
      omega

/-! ### Two children -/

lemma elapsed_eq (r : KRun flag 1 n) {t : ℕ → ℕ} {b : ℕ} (h0 : t 0 = 0) (ht : ∀ k, k ≤ b → (r.state k).mem.ticks = t k)
    (hstep : ∀ k, t (k + 1) = t k ∨ t (k + 1) = t k + 1) : ∀ k, k ≤ b → elapsed r k = t k := by
  intro k hk
  induction k with
  | zero => exact h0.symm
  | succ k ih =>
    rw [elapsed, ih (by omega), ht (k + 1) hk, ht k (by omega)]
    split_ifs with heq
    · exact heq.symm
    · have := (hstep k).resolve_left heq
      omega

lemma since_of_enters (r : KRun flag 1 n) {a b : ℕ} (hab : a < b) (h0 : ((r.state a).proc p).state ≠ .runnable)
    (h1 : ∀ k, a < k → k ≤ b → ((r.state k).proc p).state = .runnable) : since r p b = elapsed r a := by
  induction b, hab using Nat.le_induction with
  | base => rw [since, if_pos ⟨h0, h1 (a + 1) (by omega) (by omega)⟩]
  | succ b hab ih =>
    have hb := h1 b hab (by omega)
    rw [since, if_neg fun h => h.1 hb]
    exact ih fun k hak hkb => h1 k hak (by omega)

/-- The third entry of `ptable.proc`. -/
def thirdproc : Slot := ⟨2, by decide⟩

/-- The first process forks twice, with a timer interrupt in between, and waits. -/
def twoForks : List Label :=
  exec 0 (.syscall .fork) ++ go 0 6 ++ exec 0 (.page 2) ++ go 0 1 ++ exec 0 (.page 3) ++ go 0 16 ++ timer 0 ++ go 0 15 ++
    exec 0 (.syscall .fork) ++ go 0 6 ++ exec 0 (.page 4) ++ go 0 1 ++ exec 0 (.page 5) ++ go 0 16 ++
    exec 0 (.syscall .wait) ++ go 0 82

/-- The children become `RUNNABLE` at the times `a` and `b`, and `t` tells the ticks. -/
def enters (a b : ℕ) (t : ℕ → ℕ) (k : ℕ) (s : State) : Bool :=
  decide ((s.proc secondproc).state = .runnable ↔ a < k) && decide ((s.proc thirdproc).state = .runnable ↔ b < k) &&
    decide (s.mem.ticks = t k)

lemma since_enters (r : KRun flag 1 n) {a b c : ℕ} {t : ℕ → ℕ} (h : ∀ k, k ≤ c → enters a b t k (r.state k) = true)
    (ha : a < c) (hb : b < c) (h0 : t 0 = 0) (hstep : ∀ k, t (k + 1) = t k ∨ t (k + 1) = t k + 1) :
    since r secondproc c = t a ∧ since r thirdproc c = t b := by
  have hall : ∀ k, k ≤ c → (((r.state k).proc secondproc).state = .runnable ↔ a < k) ∧
      (((r.state k).proc thirdproc).state = .runnable ↔ b < k) ∧ (r.state k).mem.ticks = t k := by
    intro k hk
    have := h k hk
    simp only [enters, Bool.and_eq_true, decide_eq_true_eq] at this
    exact ⟨this.1.1, this.1.2, this.2⟩
  have helapsed := elapsed_eq r h0 (fun k hk => (hall k hk).2.2) hstep
  constructor
  · rw [← helapsed a (by omega)]
    apply since_of_enters r ha
    · exact fun hr => absurd ((hall a (by omega)).1.1 hr) (by omega)
    · exact fun k hak hkc => (hall k hkc).1.2 hak
  · rw [← helapsed b (by omega)]
    apply since_of_enters r hb
    · exact fun hr => absurd ((hall b (by omega)).2.1.1 hr) (by omega)
    · exact fun k hbk hkc => (hall k hkc).2.1.2 hbk

/-- The first child comes at tick 0, which the search takes for "none yet", and the second one at tick 1. -/
theorem second_child_first : ¬ ∀ (n : ℕ) (r : KRun .frr 1 n), Fifo r := by
  intro h
  obtain ⟨r, hq, hend⟩ := Lts.exists_run_of_check (step .frr 1) (go 0 77 ++ twoForks)
    (fun k s _ => enters 92 134 (fun k => if k ≤ 107 then 0 else 1) k s && (k != 227 || (s.cpu 0).proc.isNone))
    (fun s => (s.cpu 0).proc == some thirdproc) boot_bootState (by decide +kernel)
  have hlen : (go 0 77 ++ twoForks).length = 228 := by decide +kernel
  have henters : ∀ k, k ≤ 227 → enters 92 134 (fun k => if k ≤ 107 then 0 else 1) k (r.state k) = true := fun k hk =>
    (Bool.and_eq_true_iff.1 (hq k (by omega))).1
  obtain ⟨h2, h3⟩ := since_enters r henters (by decide) (by decide) rfl fun k => by
    split_ifs <;> omega
  have hlast := hq 227 (by omega)
  simp only [enters, Bool.and_eq_true, decide_eq_true_eq] at hlast
  refine (h _ r).first thirdproc secondproc 227 (by omega) (hlast.1.1.1.2 (by decide)) ?_ ⟨?_, ?_⟩
  · rw [h2, h3]
    decide
  · simpa using hlast.2
  · simpa [hlen] using hend

lemma elapsed_le (r : KRun flag 1 n) (k : ℕ) : elapsed r k ≤ k := by
  induction k with
  | zero => exact le_rfl
  | succ k ih =>
    rw [elapsed]
    split_ifs <;> omega

/-- Only the first process is `RUNNABLE`, with stamp 0, and the scan has looked at it last. -/
def alone (s : State) : Bool :=
  decide (∀ p, (s.proc p).state = .runnable → p = initproc) && decide ((s.proc initproc).qvalue = 0) &&
    decide ((inOrder .frr s.proc (s.cpu 0).loc.wrap NPROC).getLast? = some initproc)

/-- Only the two children are `RUNNABLE`, with the stamps 1 and 2. -/
def paired (s : State) : Bool :=
  decide (∀ p, (s.proc p).state = .runnable → p = secondproc ∨ p = thirdproc) &&
    decide ((s.proc secondproc).qvalue = 1) && decide ((s.proc thirdproc).qvalue = 2)

lemma stamped_of_alone (r : KRun .frr 1 n) {k : ℕ} (h : alone (r.state k) = true) (hw : ∀ p, ¬ Unfinished (r.state k) p) :
    Stamped r k := by
  simp only [alone, Bool.and_eq_true, decide_eq_true_eq] at h
  obtain ⟨⟨honly, hq⟩, hlast⟩ := h
  refine ⟨fun p _ => hw p, fun p q hp hq' _ hlt => ?_, Or.inr ⟨initproc, hlast, hq⟩⟩
  rw [honly p hp, honly q hq'] at hlt
  omega

lemma stamped_of_paired (r : KRun .frr 1 n) {k : ℕ} (h : paired (r.state k) = true) (hw : ∀ p, ¬ Unfinished (r.state k) p)
    (hlt : since r secondproc k < since r thirdproc k) : Stamped r k := by
  simp only [paired, Bool.and_eq_true, decide_eq_true_eq] at h
  obtain ⟨⟨honly, h2⟩, h3⟩ := h
  refine ⟨fun p _ => hw p, fun p q hp hq _ hpq => ?_, Or.inl fun p hp => ?_⟩
  · rcases honly p hp with rfl | rfl <;> rcases honly q hq with rfl | rfl <;> omega
  · rcases honly p hp with rfl | rfl <;> omega

/-- The children come at the ticks 1 and 2, and the first one goes first. -/
theorem fifo_of_stamped_inTurn : ∃ r : KRun .frr 1 (go 0 77 ++ timer 0 ++ go 0 15 ++ twoForks).length,
    ((r.state 243).proc secondproc).state = .runnable ∧ ((r.state 243).proc thirdproc).state = .runnable ∧ Fifo r := by
  obtain ⟨r, hq, -⟩ := Lts.exists_run_of_check (step .frr 1) (go 0 77 ++ timer 0 ++ go 0 15 ++ twoForks)
    (fun k s _ => enters 108 150 (fun k => if k ≤ 81 then 0 else if k ≤ 123 then 1 else 2) k s &&
      (decide ((s.ops 0).head? ≠ some choose) || (k == 72 && alone s || k == 243 && paired s) && decide (∀ p, ¬ Unfinished s p)) &&
      (decide ((s.ops 0).head? ≠ some tick) || decide (∀ i, ¬ Owes s i .ctime)))
    (fun _ => true) boot_bootState (by decide +kernel)
  have hlen : (go 0 77 ++ timer 0 ++ go 0 15 ++ twoForks).length = 244 := by decide +kernel
  have hall := fun k hk => Bool.and_eq_true_iff.1 (hq k hk)
  have hboth := fun k hk => Bool.and_eq_true_iff.1 (hall k hk).1
  obtain ⟨h2, h3⟩ := since_enters r (c := 243) (fun k hk => (hboth k (by omega)).1) (by decide) (by decide) rfl fun k => by
    split_ifs <;> omega
  have hlast := (hboth 243 (by omega)).1
  simp only [enters, Bool.and_eq_true, decide_eq_true_eq] at hlast
  have ht : Timely r := by
    refine ⟨fun k hk rest ho i => ?_, fun k hk => ?_⟩
    · have htick := (hall k hk).2
      simp only [ho, List.head?_cons, ne_eq, not_true_eq_false, decide_false, Bool.false_or, decide_eq_true_eq] at htick
      exact htick i
    · have := elapsed_le r k
      omega
  refine ⟨r, hlast.1.1.2 (by decide), hlast.1.2.2 (by decide), fifo_of_stamped r ht fun k hk rest ho => ?_⟩
  have hchoose := (hboth k hk).2
  simp only [ho, List.head?_cons, ne_eq, not_true_eq_false, decide_false, Bool.false_or, Bool.or_eq_true,
    Bool.and_eq_true, beq_iff_eq, decide_eq_true_eq] at hchoose
  rcases hchoose with ⟨⟨-, halone⟩ | ⟨rfl, hpaired⟩, hw⟩
  · exact stamped_of_alone r halone hw
  · exact stamped_of_paired r hpaired hw (by rw [h2, h3]; decide)

end Os132

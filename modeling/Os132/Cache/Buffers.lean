import Os132.Cache.Sound
import Mathlib.Data.Finset.Card
import Mathlib.Data.Finset.Union
import Mathlib.Data.Fintype.Fin

/-!
# When bget runs out of buffers

A `bget` that misses needs a buffer that is neither busy nor dirty. A buffer that is busy or dirty caches a sector that
some call asked for, so there is one to recycle as long as the calls do not want more sectors at a time than there are
buffers.
-/

namespace Os132

namespace Bcache

def NPROC : ℕ := 64

/-- The panic in question. -/
def noBuffers : String := "bget: no buffers"

/-- The sector that a process in `bget` has asked for and has no buffer for yet. -/
def Pc.asks : Pc → Option (ℕ × ℕ)
  | .bget dev sector _ => some (dev, sector)
  | .asleep _ dev sector _ => some (dev, sector)
  | _ => none

/-- The sectors that processes hold, that the transaction has left dirty, or that processes have asked for. -/
def State.wanted {P : Type} [Fintype P] (s : State P) : Finset (ℕ × ℕ) :=
  (Finset.univ.filter fun c => ¬ (s.buf c).Spare).image (fun c => ((s.buf c).dev, (s.buf c).sector)) ∪
    Finset.univ.biUnion fun p => (s.pc p).asks.toFinset

/-- A call of `bread`, or of `log_write`, which reads the block of the log: with its sector at most `NBUF` are wanted. -/
def Fits {P : Type} [Fintype P] (s : State P) : Label P → Prop
  | .bread _ dev sector => dev ≠ NODEV ∧ (insert (dev, sector) s.wanted).card ≤ NBUF
  | .log_write _ b =>
    (insert ((s.buf b).dev, (s.log.start + s.log.slot (s.buf b).sector + 1) % 2 ^ 32) s.wanted).card ≤ NBUF
  | _ => True

/-- A process that reads: it asks for a block of the root device while it holds no other one, and gives it back. -/
def Reading {P : Type} (s : State P) : Label P → Bool
  | .bread p dev sector => (s.own p).card == 0 && dev == ROOTDEV && decide (sector < 2 ^ 28)
  | .brelse .. => true
  | .run _ => true
  | .ideintr => true
  | _ => false

variable {P : Type} [DecidableEq P] {s s' : State P} {n : ℕ}

/-! ### What is wanted -/

/-- A buffer that is not spare caches the sector, or a process asks for it. -/
def Wants (s : State P) (x : ℕ × ℕ) : Prop :=
  (∃ c, ¬ (s.buf c).Spare ∧ (s.buf c).Caches x.1 x.2) ∨ ∃ p, (s.pc p).asks = some x

omit [DecidableEq P] in
lemma mem_wanted [Fintype P] {x : ℕ × ℕ} : x ∈ s.wanted ↔ Wants s x := by
  unfold State.wanted Wants Buf.Caches
  simp [Prod.ext_iff]

/-- What a step leads to is wanted before, except for the sectors in `new`. -/
def Wanting (s s' : State P) (new : ℕ × ℕ → Prop) : Prop := ∀ x, Wants s' x → Wants s x ∨ new x

variable {new : ℕ × ℕ → Prop} {p : P} {c : BufId} {b : Buf} {pc : Pc}

omit [DecidableEq P] in
lemma Wanting.of (hbuf : ∀ d, ¬ (s'.buf d).Spare → Wants s ((s'.buf d).dev, (s'.buf d).sector) ∨ new ((s'.buf d).dev, (s'.buf d).sector))
    (hpc : ∀ q x, (s'.pc q).asks = some x → Wants s x ∨ new x) : Wanting s s' new := by
  rintro x (⟨d, hd, h1, h2⟩ | ⟨q, hq⟩)
  · have := hbuf d hd
    rwa [h1, h2] at this
  · exact hpc q x hq

omit [DecidableEq P] in
lemma wants_buf {d : BufId} (hd : ¬ (s.buf d).Spare) : Wants s ((s.buf d).dev, (s.buf d).sector) := Or.inl ⟨d, hd, rfl, rfl⟩

omit [DecidableEq P] in
lemma Wanting.same (hbuf : s'.buf = s.buf) (hpc : ∀ q, (s'.pc q).asks = none ∨ (s'.pc q).asks = (s.pc q).asks) :
    Wanting s s' new := by
  refine .of (fun d hd => ?_) fun q x hx => ?_
  · rw [hbuf] at hd ⊢
    exact Or.inl (wants_buf hd)
  · rcases hpc q with h | h
    · rw [h] at hx
      cases hx
    · exact Or.inl (Or.inr ⟨q, h ▸ hx⟩)

omit [DecidableEq P] in
lemma Wanting.trans {s'' : State P} (h : Wanting s s' new) (h' : Wanting s' s'' fun _ => False) : Wanting s s'' new :=
  fun x hx => h x ((h' x hx).resolve_right id)

lemma wanting_goto (h : pc.asks = none) : Wanting s (s.goto p pc) new := by
  refine .same rfl fun q => ?_
  simp only [State.goto]
  split_ifs
  · exact Or.inl h
  · exact Or.inr rfl

omit [DecidableEq P] in
lemma wanting_setBuf (hbuf : s'.buf = (s.setBuf c b).buf) (hpc : s'.pc = s.pc) (h : ¬ (s.buf c).Spare)
    (hdev : b.dev = (s.buf c).dev) (hsector : b.sector = (s.buf c).sector) : Wanting s s' new := by
  refine .of (fun d hd => ?_) fun q x hx => Or.inl (Or.inr ⟨q, by rw [← hpc]; exact hx⟩)
  rw [hbuf] at hd ⊢
  simp only [State.setBuf] at hd ⊢
  split_ifs at hd ⊢ with hdc
  · rw [hdev, hsector]
    exact Or.inl (wants_buf h)
  · exact Or.inl (wants_buf hd)

/-- A buffer taken caches what was asked for. -/
lemma wanting_take (hdev : Wants s (b.dev, b.sector)) (hpc : pc.asks = none) : Wanting s (s.take p c b pc) new := by
  refine .of (fun d hd => ?_) fun q x hx => ?_
  · simp only [State.take, State.goto, State.setBuf] at hd ⊢
    split_ifs at hd ⊢
    · exact Or.inl hdev
    · exact Or.inl (wants_buf hd)
  · simp only [State.take, State.goto, State.setBuf] at hx
    split_ifs at hx
    · rw [hpc] at hx
      cases hx
    · exact Or.inl (Or.inr ⟨q, hx⟩)

lemma wanting_bget (h : Inv s) {dev sector : ℕ} {k : Use} (hp : s.pc p = .bget dev sector k) :
    Wanting s (s.bget p dev sector k) new := by
  have hask : Wants s (dev, sector) := Or.inr ⟨p, by rw [hp]; rfl⟩
  unfold State.bget
  cases hc : s.cached dev sector with
  | some c =>
    obtain ⟨h1, h2⟩ := h.cached_some hc
    dsimp only
    split_ifs
    · refine .same rfl fun q => ?_
      simp only [State.goto]
      split_ifs with hq
      · rw [hq, hp]
        exact Or.inr rfl
      · exact Or.inr rfl
    · refine wanting_take ?_ rfl
      simpa [h1, h2] using hask
  | none =>
    cases s.spare with
    | some c => exact wanting_take hask rfl
    | none => exact .same rfl fun _ => Or.inr rfl

lemma wanting_iderw (h : pc.asks = none) : Wanting s (s.iderw p c pc) new := by
  unfold State.iderw
  split_ifs
  · exact .same rfl fun _ => Or.inr rfl
  · exact .same rfl fun _ => Or.inr rfl
  · exact .same rfl fun _ => Or.inr rfl
  · refine .same rfl fun q => ?_
    simp only [State.goto]
    split_ifs
    · exact Or.inl h
    · exact Or.inr rfl

lemma wanting_returns {k : Use} : Wanting s (s.returns p c k) new := by
  cases k with
  | caller => exact wanting_goto rfl
  | log_write b i => exact wanting_goto rfl

omit [DecidableEq P] in
lemma busy_not_spare (h : (s.buf c).busy = true) : ¬ (s.buf c).Spare := by
  simp [Buf.Spare, h]

lemma wanting_bwrite {k : Option (BufId × ℕ)} : Wanting s (s.bwrite p c k) new := by
  unfold State.bwrite
  split_ifs with hb
  · exact .same rfl fun _ => Or.inr rfl
  · have hset : Wanting s ((s.record c).setBuf c { s.buf c with dirty := true, changed := false }) new :=
      wanting_setBuf rfl rfl (busy_not_spare (by simpa using hb)) rfl rfl
    exact hset.trans (wanting_iderw rfl)

omit [DecidableEq P] in
lemma asks_wake : (pc.wake c).asks = pc.asks := by
  unfold Pc.wake
  split
  · split_ifs <;> rfl
  · rfl

lemma wanting_brelse (hpc : pc.asks = none) : Wanting s (s.brelse p c pc) new := by
  unfold State.brelse
  split_ifs with hb
  · exact .same rfl fun _ => Or.inr rfl
  · refine .of (fun d hd => ?_) fun q x hx => ?_
    · simp only [State.setBuf] at hd ⊢
      split_ifs at hd ⊢ with hdc
      · exact Or.inl (wants_buf (busy_not_spare (by simpa using hb)))
      · exact Or.inl (wants_buf hd)
    · dsimp only at hx
      split_ifs at hx
      · rw [hpc] at hx
        cases hx
      · rw [asks_wake] at hx
        exact Or.inl (Or.inr ⟨q, hx⟩)

omit [DecidableEq P] in
lemma wanting_ideintr : Wanting s s.ideintr new := by
  unfold State.ideintr
  split
  · exact .same rfl fun _ => Or.inr rfl
  · rename_i c l _
    refine .of (fun d hd => ?_) fun q x hx => Or.inl (Or.inr ⟨q, by simpa [State.complete, asks_wake] using hx⟩)
    by_cases hdc : d = c
    · subst hdc
      have hkeep : ((s.complete d).buf d).dev = (s.buf d).dev ∧ ((s.complete d).buf d).sector = (s.buf d).sector := by
        simp [State.complete]
      have hns : ¬ (s.buf d).Spare := fun hsp => hd ⟨by simpa [State.complete] using hsp.1, by simp [State.complete]⟩
      exact Or.inl (by rw [hkeep.1, hkeep.2]; exact wants_buf hns)
    · have hsame : (s.complete c).buf d = s.buf d := by simp [State.complete, hdc]
      change ¬ ((s.complete c).buf d).Spare at hd
      change Wants s (((s.complete c).buf d).dev, ((s.complete c).buf d).sector) ∨ _
      rw [hsame] at hd ⊢
      exact Or.inl (wants_buf hd)

lemma wanting_run (h : Inv s) (hrun : s.run p = some s') : Wanting s s' new := by
  have huses := h.uses p
  unfold State.run at hrun
  split at hrun <;> rename_i hpc
  · cases hrun
  · cases hrun
  · cases hrun
    exact wanting_bget h hpc
  · split_ifs at hrun <;> cases hrun
    · exact wanting_returns
    · exact wanting_iderw rfl
  · split_ifs at hrun
    cases hrun
    exact wanting_returns
  · split_ifs at hrun
    cases hrun
    exact wanting_goto rfl
  · split_ifs at hrun
    cases hrun
    exact wanting_goto rfl
  · rename_i c b i
    cases hrun
    have hbusy : (s.buf c).busy = true := (h.busy c).2 ⟨p, huses c (by simp [hpc, Pc.bufs])⟩
    have hset : Wanting s (s.setBuf c { s.buf c with data := (s.buf b).data, changed := true }) new :=
      wanting_setBuf rfl rfl (busy_not_spare hbusy) rfl rfl
    exact hset.trans wanting_bwrite
  · cases hrun
    exact wanting_brelse rfl
  · rename_i b i
    cases hrun
    have hbusy : (s.buf b).busy = true := (h.busy b).2 ⟨p, huses b (by simp [hpc, Pc.bufs])⟩
    have hset : Wanting s ((s.record b).setBuf b { s.buf b with dirty := true, changed := false }) new :=
      wanting_setBuf rfl rfl (busy_not_spare hbusy) rfl rfl
    refine hset.trans (.same rfl fun q => ?_)
    simp only [State.mark, State.goto]
    split_ifs
    · exact Or.inl rfl
    · exact Or.inr rfl

/-- The sector that a call asks for. -/
def Label.asks (s : State P) : Label P → Option (ℕ × ℕ)
  | .bread _ dev sector => some (dev, sector)
  | .log_write _ b => some ((s.buf b).dev, (s.log.start + s.log.slot (s.buf b).sector + 1) % 2 ^ 32)
  | _ => none

/-- Only the calls want a new sector. -/
lemma wanting_step {l : Label P} (h : Inv s) (hstep : step l s = some s') : Wanting s s' fun x => l.asks s = some x := by
  have hcall (q : P) (x : ℕ × ℕ) (k : Use) (hx : l.asks s = some x) : Wanting s (s.goto q (.bget x.1 x.2 k)) fun x => l.asks s = some x := by
    refine .of (fun d hd => Or.inl (wants_buf hd)) fun q' y hy => ?_
    simp only [State.goto] at hy
    split_ifs at hy
    · exact Or.inr (hx.trans hy)
    · exact Or.inl (Or.inr ⟨q', hy⟩)
  unfold step at hstep
  split_ifs at hstep
  cases l with
  | bread p dev sector =>
    dsimp only at hstep
    split_ifs at hstep
    cases hstep
    exact hcall p (dev, sector) .caller rfl
  | store p b data =>
    dsimp only at hstep
    split_ifs at hstep with hp
    cases hstep
    exact wanting_setBuf rfl rfl (busy_not_spare ((h.busy b).2 ⟨p, hp.2⟩)) rfl rfl
  | bwrite p b =>
    dsimp only at hstep
    split_ifs at hstep
    cases hstep
    exact wanting_bwrite
  | log_write p b =>
    dsimp only at hstep
    split_ifs at hstep
    cases hstep
    unfold State.log_write
    split_ifs
    · exact .same rfl fun _ => Or.inr rfl
    · exact .same rfl fun _ => Or.inr rfl
    · exact hcall p ((s.buf b).dev, (s.log.start + s.log.slot (s.buf b).sector + 1) % 2 ^ 32) (.log_write b _) rfl
  | brelse p b =>
    dsimp only at hstep
    split_ifs at hstep
    cases hstep
    exact wanting_brelse rfl
  | run p => exact wanting_run h hstep
  | ideintr =>
    cases hstep
    exact wanting_ideintr
  | kill p =>
    dsimp only at hstep
    split at hstep <;> rename_i hpc <;> cases hstep
    · refine .same rfl fun q => ?_
      simp only [State.goto]
      split_ifs with hq
      · rw [hq, hpc]
        exact Or.inr rfl
      · exact Or.inr rfl
    · exact .same rfl fun _ => Or.inr rfl
  | log l =>
    cases hstep
    exact .same rfl fun _ => Or.inr rfl

/-! ### The count -/

/-- At most `NBUF` sectors are wanted, all of them of a device. -/
structure Bounded [Fintype P] (s : State P) : Prop where
  card : s.wanted.card ≤ NBUF
  real : ∀ x, Wants s x → x.1 ≠ NODEV

lemma Bounded.step [Fintype P] {l : Label P} (hb : Bounded s) (h : Inv s) (hfits : Fits s l) (hstep : step l s = some s') :
    Bounded s' := by
  have hw := wanting_step h hstep
  cases hl : l.asks s with
  | none =>
    rw [hl] at hw
    have hsub : ∀ x, Wants s' x → Wants s x := fun x hx => (hw x hx).resolve_right (by simp)
    exact ⟨(Finset.card_le_card fun x hx => mem_wanted.2 (hsub x (mem_wanted.1 hx))).trans hb.card, fun x hx => hb.real x (hsub x hx)⟩
  | some y =>
    rw [hl] at hw
    have hy : y.1 ≠ NODEV ∧ (insert y s.wanted).card ≤ NBUF := by
      cases l with
      | bread p dev sector =>
        cases hl
        exact hfits
      | log_write p b =>
        cases hl
        refine ⟨?_, hfits⟩
        have hp : b ∈ s.own p := by
          unfold Bcache.step at hstep
          split_ifs at hstep
          dsimp only at hstep
          split_ifs at hstep with hp
          exact hp.2
        exact hb.real ((s.buf b).dev, (s.buf b).sector) (wants_buf (busy_not_spare ((h.busy b).2 ⟨p, hp⟩)))
      | _ => cases hl
    have hsub : ∀ x, Wants s' x → x ∈ insert y s.wanted := by
      intro x hx
      rcases hw x hx with h | h
      · exact Finset.mem_insert_of_mem (mem_wanted.2 h)
      · rw [Option.some.inj h]
        exact Finset.mem_insert_self x _
    refine ⟨(Finset.card_le_card fun x hx => hsub x (mem_wanted.1 hx)).trans hy.2, fun x hx => ?_⟩
    rcases Finset.mem_insert.1 (hsub x hx) with rfl | hx
    · exact hy.1
    · exact hb.real x (mem_wanted.1 hx)

omit [DecidableEq P] in
/-- A process that finds no buffer for its sector finds one to recycle: the others are fewer than those wanted. -/
lemma Bounded.spare [Fintype P] (hb : Bounded s) (h : Inv s) {dev sector : ℕ} {k : Use} (hp : s.pc p = .bget dev sector k)
    (hc : s.cached dev sector = none) : s.spare ≠ none := by
  intro hnone
  have hall := h.spare_none hnone
  have hinj : Function.Injective fun c : BufId => ((s.buf c).dev, (s.buf c).sector) := by
    intro c d hcd
    exact h.unique c d (Prod.ext_iff.1 hcd).1 (Prod.ext_iff.1 hcd).2 (hb.real _ (wants_buf (hall c)))
  have hask : (dev, sector) ∈ s.wanted := mem_wanted.2 (Or.inr ⟨p, by rw [hp]; rfl⟩)
  have hnot : (dev, sector) ∉ Finset.univ.image fun c : BufId => ((s.buf c).dev, (s.buf c).sector) := by
    intro hin
    obtain ⟨c, -, hcd⟩ := Finset.mem_image.1 hin
    exact h.cached_none hc c ⟨(Prod.ext_iff.1 hcd).1, (Prod.ext_iff.1 hcd).2⟩
  have hsub : insert (dev, sector) (Finset.univ.image fun c : BufId => ((s.buf c).dev, (s.buf c).sector)) ⊆ s.wanted := by
    intro x hx
    rcases Finset.mem_insert.1 hx with rfl | hx
    · exact hask
    · obtain ⟨c, -, rfl⟩ := Finset.mem_image.1 hx
      exact mem_wanted.2 (wants_buf (hall c))
  have hcard := Finset.card_le_card hsub
  rw [Finset.card_insert_of_notMem hnot, Finset.card_image_of_injective _ hinj, Finset.card_univ, Fintype.card_fin] at hcard
  have := hb.card
  omega

/-! ### The panic -/

lemma iderw_panicked (hs : s.panicked = none) (p : P) (c : BufId) (pc : Pc) : (s.iderw p c pc).panicked ≠ some noBuffers := by
  unfold State.iderw
  split_ifs <;> simp [State.halt, State.goto, noBuffers, hs]

lemma bwrite_panicked (hs : s.panicked = none) (p : P) (c : BufId) (k : Option (BufId × ℕ)) :
    (s.bwrite p c k).panicked ≠ some noBuffers := by
  unfold State.bwrite
  split_ifs
  · simp [State.halt, noBuffers]
  · refine iderw_panicked ?_ p c _
    exact hs

lemma brelse_panicked (hs : s.panicked = none) (p : P) (c : BufId) (pc : Pc) :
    (s.brelse p c pc).panicked ≠ some noBuffers := by
  unfold State.brelse
  split_ifs <;> simp [State.halt, State.setBuf, noBuffers, hs]

lemma returns_panicked (hs : s.panicked = none) (p : P) (c : BufId) (k : Use) :
    (s.returns p c k).panicked ≠ some noBuffers := by
  cases k <;> simp [State.returns, State.goto, hs]

lemma bget_panicked (hs : s.panicked = none) (p : P) (dev sector : ℕ) (k : Use) :
    (s.bget p dev sector k).panicked = some noBuffers ↔ s.cached dev sector = none ∧ s.spare = none := by
  unfold State.bget
  cases hc : s.cached dev sector with
  | some c =>
    simp only [reduceCtorEq, false_and, iff_false]
    split_ifs <;> simp [State.goto, State.take, State.setBuf, hs]
  | none =>
    cases hf : s.spare with
    | some c => simp [State.goto, State.take, State.setBuf, hs]
    | none => simp [State.halt, noBuffers]

/-- Only a `bget` that finds neither its sector nor a buffer to recycle panics so. -/
lemma run_panicked {p : P} (hs : s.panicked = none) (hrun : s.run p = some s') :
    s'.panicked = some noBuffers ↔ ∃ dev sector k, s.pc p = .bget dev sector k ∧ s.cached dev sector = none ∧ s.spare = none := by
  unfold State.run at hrun
  split at hrun <;> rename_i hpc
  case h_3 dev sector k =>
    cases hrun
    rw [bget_panicked hs]
    simp [hpc]
  all_goals
    refine iff_of_false ?_ (by simp [hpc])
  · cases hrun
  · cases hrun
  · split_ifs at hrun <;> cases hrun
    · exact returns_panicked hs p _ _
    · exact iderw_panicked hs p _ _
  · split_ifs at hrun
    cases hrun
    exact returns_panicked hs p _ _
  · split_ifs at hrun
    cases hrun
    simp [State.goto, hs]
  · split_ifs at hrun
    cases hrun
    simp [State.goto, hs]
  · cases hrun
    refine bwrite_panicked ?_ p _ _
    exact hs
  · cases hrun
    exact brelse_panicked hs p _ _
  · cases hrun
    simp [State.mark, State.goto, State.setBuf, State.record, hs]

lemma step_panicked {l : Label P} (hstep : step l s = some s') :
    s'.panicked = some noBuffers ↔
      ∃ p dev sector k, l = .run p ∧ s.pc p = .bget dev sector k ∧ s.cached dev sector = none ∧ s.spare = none := by
  unfold step at hstep
  split_ifs at hstep with hs
  have hs : s.panicked = none := by simpa using hs
  cases l with
  | run p =>
    rw [run_panicked hs hstep]
    simp
  | bread p dev sector =>
    dsimp only at hstep
    split_ifs at hstep
    cases hstep
    simp [State.goto, hs]
  | store p b data =>
    dsimp only at hstep
    split_ifs at hstep
    cases hstep
    simp [State.setBuf, hs]
  | bwrite p b =>
    dsimp only at hstep
    split_ifs at hstep
    cases hstep
    simp [bwrite_panicked hs]
  | log_write p b =>
    dsimp only at hstep
    split_ifs at hstep
    cases hstep
    unfold State.log_write
    split_ifs <;> simp [State.halt, State.goto, noBuffers, hs]
  | brelse p b =>
    dsimp only at hstep
    split_ifs at hstep
    cases hstep
    simp [brelse_panicked hs]
  | ideintr =>
    cases hstep
    unfold State.ideintr
    split <;> simp [State.complete, hs]
  | kill p =>
    dsimp only at hstep
    split at hstep <;> cases hstep <;> simp [State.goto, hs]
  | log l =>
    cases hstep
    simp [hs]

omit [DecidableEq P] in
lemma bounded_start [Fintype P] (h : Start s) : Bounded s := by
  obtain ⟨image, havedisk1, log, rfl⟩ := h
  have hnone : ∀ x, ¬ Wants (binit (P := P) image havedisk1 log) x := by
    rintro x (⟨c, hc, -⟩ | ⟨p, hp⟩)
    · exact hc ⟨rfl, rfl⟩
    · cases hp
  refine ⟨?_, fun x hx => absurd hx (hnone x)⟩
  rw [Finset.card_eq_zero.2 (Finset.eq_empty_of_forall_notMem fun x hx => hnone x (mem_wanted.1 hx))]
  exact Nat.zero_le _

/-- In every run whose calls fit the panic stays away. -/
theorem bget_finds_of_fits [Fintype P] (r : Lts.Run (Start (P := P)) step n) (hok : r.Meets Fits) :
    ∀ k, k ≤ n → (r.state k).panicked ≠ some noBuffers := by
  have hbounded : ∀ k, k ≤ n → Bounded (r.state k) := by
    intro k hk
    induction k with
    | zero => exact bounded_start r.starts
    | succ k ih => exact (ih (by omega)).step (inv_run r k (by omega)) (hok k hk) (r.steps k hk)
  intro k hk hp
  cases k with
  | zero =>
    obtain ⟨image, havedisk1, log, hs⟩ := r.starts
    rw [hs] at hp
    cases hp
  | succ k =>
    obtain ⟨q, dev, sector, u, -, hpc, hc, hspare⟩ := (step_panicked (r.steps k hk)).1 hp
    exact (hbounded k (by omega)).spare (inv_run r k (by omega)) hpc hc hspare

/-- The first ten processes ask for a block each and go to sleep in `iderw`; then the next one asks for `sector`. -/
def oneMore (sector : ℕ) : List (Label (Fin NPROC)) :=
  ((List.finRange NPROC).take 10).flatMap (fun p => [.bread p ROOTDEV (100 + p), .run p, .run p]) ++
    [.bread ⟨10, by decide⟩ ROOTDEV sector, .run ⟨10, by decide⟩]

instance [Fintype P] (s : State P) (l : Label P) : Decidable (Fits s l) :=
  match l with
  | .bread .. => inferInstanceAs (Decidable (_ ∧ _))
  | .log_write .. => inferInstanceAs (Decidable (_ ≤ _))
  | .store .. => isTrue trivial
  | .bwrite .. => isTrue trivial
  | .brelse .. => isTrue trivial
  | .run _ => isTrue trivial
  | .ideintr => isTrue trivial
  | .kill _ => isTrue trivial
  | .log _ => isTrue trivial

/-- It may be one of the blocks that the ten are reading. -/
theorem bget_finds_of_fits_shared : ∃ r : Lts.Run (Start (P := Fin NPROC)) step (oneMore 103).length,
    (r.Meets Fits) ∧ ∀ k, k ≤ (oneMore 103).length → (r.state k).panicked ≠ some noBuffers := by
  have hstart : Start (P := Fin NPROC) (binit (fun _ _ _ => 0) true ⟨0, 0, false, 0, fun _ => 0⟩) := ⟨_, _, _, rfl⟩
  obtain ⟨r, hok, -⟩ := Lts.exists_run_of_check (step (P := Fin NPROC)) (oneMore 103)
    (fun _ s l => decide (Fits s l)) (fun _ => true) hstart (by decide +kernel)
  have hfits : r.Meets Fits := fun k hk => by simpa using hok k hk
  exact ⟨r, hfits, bget_finds_of_fits r hfits⟩

/-- Eleven processes that only read are enough for the panic. -/
theorem eleven_readers : ∃ r : Lts.Run (Start (P := Fin NPROC)) step (oneMore 110).length,
    (r.Meets fun s l => Reading s l = true) ∧ (r.state (oneMore 110).length).panicked = some noBuffers := by
  have hstart : Start (P := Fin NPROC) (binit (fun _ _ _ => 0) true ⟨0, 0, false, 0, fun _ => 0⟩) := ⟨_, _, _, rfl⟩
  obtain ⟨r, hok, hend⟩ := Lts.exists_run_of_check (step (P := Fin NPROC)) (oneMore 110)
    (fun _ s l => Reading s l) (fun s => decide (s.panicked = some noBuffers))
    hstart (by decide +kernel)
  exact ⟨r, hok, by simpa using hend⟩

end Bcache

end Os132

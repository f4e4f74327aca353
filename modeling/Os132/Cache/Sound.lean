import Os132.Cache.Fresh

/-!
# The buffer cache in every run

At every point of every run a sector has at most one buffer, a buffer at most one holder and the links are one
circular list of all buffers; no step recycles a buffer that is busy or dirty; and what `bread` returns is what was
last written to the sector through the cache.
-/

namespace Os132

namespace Bcache

variable {P : Type} {s s' : State P}

/-- What a caller owes: it asks for a sector that the disks have, and releases no buffer that it has changed and not
written. The log lies on the disk. -/
def Proper (s : State P) : Label P → Prop
  | .bread _ dev sector => Real dev sector
  | .log_write _ _ => s.log.start + LOGSIZE < 2 ^ 28
  | .brelse _ b => (s.buf b).changed = false
  | _ => True

lemma slot_le (l : Log) (sector : ℕ) : l.slot sector ≤ l.n.toNat := by
  unfold Log.slot
  cases h : (List.range l.n.toNat).find? fun i => l.sector i = sector with
  | none => simp
  | some i =>
    have := List.mem_range.1 (List.mem_of_find?_eq_some h)
    simp only [Option.getD_some]
    omega

/-- Every buffer that may not be recycled keeps its sector. -/
def Keeps (s s' : State P) : Prop :=
  ∀ c, (s.buf c).busy = true ∨ (s.buf c).dirty = true →
    (s'.buf c).dev = (s.buf c).dev ∧ (s'.buf c).sector = (s.buf c).sector

lemma Keeps.of_setBuf {c : BufId} {b : Buf} (hb : s'.buf = (s.setBuf c b).buf)
    (h : (s.buf c).busy = true ∨ (s.buf c).dirty = true → b.dev = (s.buf c).dev ∧ b.sector = (s.buf c).sector) : Keeps s s' := by
  intro d hd
  rw [hb]
  by_cases hdc : d = c
  · subst hdc
    simpa [State.setBuf] using h hd
  · simp [State.setBuf, hdc]

lemma Keeps.of_eq (hb : s'.buf = s.buf) : Keeps s s' := fun c _ => by simp [hb]

/-- The `bread` of `p` for `sector` of `dev` is about to return `c`. -/
def Returning (s : State P) (p : P) (dev sector : ℕ) (c : BufId) : Prop :=
  ∃ k, s.pc p = .test c dev sector k ∧ (s.buf c).valid = true ∨ s.pc p = .fill c dev sector k ∧ (s.buf c).ready = true

lemma Fresh.returning (h : Fresh s) {p : P} {dev sector : ℕ} {c : BufId} (hr : Returning s p dev sector c) :
    (s.buf c).Caches dev sector ∧ (s.buf c).data = s.expected dev sector := by
  have hpl := h.place p
  obtain ⟨k, ⟨hpc, hv⟩ | ⟨hpc, hv⟩⟩ := hr <;> rw [hpc] at hpl
  · have hd := h.data c hv hpl.2
    rw [hpl.1.1, hpl.1.2] at hd
    exact ⟨hpl.1, hd⟩
  · have hd := h.data c (by simp_all [Buf.ready]) hpl.2.1
    rw [hpl.1.1, hpl.1.2] at hd
    exact ⟨hpl.1, hd⟩

variable [DecidableEq P]

lemma Fresh.log_write (h : Fresh s) (hi : Inv s) {p : P} {b : BufId} (hb : b ∈ s.own p) (hp : s.pc p = .idle)
    (hlog : s.log.start + LOGSIZE < 2 ^ 28) : Fresh (s.log_write p b) := by
  unfold State.log_write
  split_ifs with hn
  · exact h.halt _
  · exact h.halt _
  · have hbusy : (s.buf b).busy = true := (hi.busy b).2 ⟨p, hb⟩
    have hreal : Real (s.buf b).dev (s.buf b).sector := (h.real b).resolve_right (by simp [hbusy])
    have hslot := slot_le s.log (s.buf b).sector
    have hat : Real (s.buf b).dev ((s.log.start + s.log.slot (s.buf b).sector + 1) % 2 ^ 32) := by
      refine ⟨hreal.1, ?_⟩
      unfold LOGSIZE at hn hlog
      omega
    have hg := h.goto (p := p) (x := .bget (s.buf b).dev ((s.log.start + s.log.slot (s.buf b).sector + 1) % 2 ^ 32)
      (.log_write b (s.log.slot (s.buf b).sector))) hat (by simp [hp, Pc.Unread]) (by simp [hp, Pc.waits])
    exact hg.congr rfl rfl rfl rfl rfl rfl rfl

theorem fresh_step {l : Label P} (h : Fresh s) (hi : Inv s) (hok : Proper s l) (hstep : step l s = some s') : Fresh s' := by
  unfold step at hstep
  split_ifs at hstep
  cases l with
  | bread p dev sector =>
    dsimp only at hstep
    split_ifs at hstep with hp
    cases hstep
    have hp := idle_iff.1 hp
    exact h.goto hok (by simp [hp, Pc.Unread]) (by simp [hp, Pc.waits])
  | store p b data =>
    dsimp only at hstep
    split_ifs at hstep with hp
    cases hstep
    have hst : (s.pc p).Steady := by simp [idle_iff.1 hp.1, Pc.Steady]
    exact h.poke hi (l := s.last) hp.2 hst ⟨rfl, rfl, rfl, rfl⟩ (Or.inl ⟨rfl, rfl, rfl⟩)
  | bwrite p b =>
    dsimp only at hstep
    split_ifs at hstep with hp
    cases hstep
    exact h.bwrite hi hp.2 (by simp [idle_iff.1 hp.1, Pc.Steady])
  | log_write p b =>
    dsimp only at hstep
    split_ifs at hstep with hp
    cases hstep
    exact h.log_write hi hp.2 (idle_iff.1 hp.1) hok
  | brelse p b =>
    dsimp only at hstep
    split_ifs at hstep with hp
    cases hstep
    have hpc := idle_iff.1 hp.1
    exact h.brelse hi hp.2 (by simp [hpc, Pc.waits]) (by simp [hpc, Pc.Unread]) hok trivial
  | run p => exact h.run hi hstep
  | ideintr =>
    cases hstep
    exact h.ideintr hi
  | kill p =>
    dsimp only at hstep
    split at hstep <;> cases hstep
    · rename_i hpc
      have hpl := h.place p
      rw [hpc] at hpl
      exact h.goto hpl (by simp [hpc, Pc.Unread]) (by simp [hpc, Pc.waits])
    · exact h
  | log l =>
    cases hstep
    exact h.congr rfl rfl rfl rfl rfl rfl rfl

lemma iderw_buf (p : P) (c : BufId) (pc : Pc) : (s.iderw p c pc).buf = s.buf := by
  unfold State.iderw
  split_ifs <;> rfl

lemma returns_buf (p : P) (c : BufId) (k : Use) : (s.returns p c k).buf = s.buf := by
  cases k <;> rfl

lemma keeps_bwrite (p : P) (c : BufId) (k : Option (BufId × ℕ)) : Keeps s (s.bwrite p c k) := by
  unfold State.bwrite
  split_ifs
  · exact Keeps.of_eq rfl
  · refine Keeps.of_setBuf (c := c) (b := { s.buf c with dirty := true, changed := false }) ?_ fun _ => ⟨rfl, rfl⟩
    rw [iderw_buf]
    rfl

lemma keeps_brelse (p : P) (c : BufId) (pc : Pc) : Keeps s (s.brelse p c pc) := by
  unfold State.brelse
  split_ifs
  · exact Keeps.of_eq rfl
  · exact Keeps.of_setBuf (c := c) (b := { s.buf c with busy := false }) rfl fun _ => ⟨rfl, rfl⟩

lemma keeps_bget (h : Inv s) (p : P) (dev sector : ℕ) (k : Use) : Keeps s (s.bget p dev sector k) := by
  unfold State.bget
  split
  · rename_i c _
    split_ifs
    · exact Keeps.of_eq rfl
    · exact Keeps.of_setBuf (c := c) (b := { s.buf c with busy := true }) rfl fun _ => ⟨rfl, rfl⟩
  · split
    · rename_i c hc
      obtain ⟨hb, hd⟩ := h.spare_some hc
      exact Keeps.of_setBuf (c := c) rfl fun hx => by simp [hb, hd] at hx
    · exact Keeps.of_eq rfl

lemma keeps_run {p : P} (h : Inv s) (hrun : s.run p = some s') : Keeps s s' := by
  unfold State.run at hrun
  split at hrun
  · cases hrun
  · cases hrun
  · cases hrun
    exact keeps_bget h p _ _ _
  · split_ifs at hrun <;> cases hrun
    · exact Keeps.of_eq (returns_buf p _ _)
    · exact Keeps.of_eq (iderw_buf p _ _)
  · split_ifs at hrun
    cases hrun
    exact Keeps.of_eq (returns_buf p _ _)
  · split_ifs at hrun
    cases hrun
    exact Keeps.of_eq rfl
  · split_ifs at hrun
    cases hrun
    exact Keeps.of_eq rfl
  · rename_i c b i _
    cases hrun
    intro d hd
    have h1 : Keeps s (s.setBuf c { s.buf c with data := (s.buf b).data, changed := true }) :=
      Keeps.of_setBuf (c := c) rfl fun _ => ⟨rfl, rfl⟩
    have h2 := keeps_bwrite (s := s.setBuf c { s.buf c with data := (s.buf b).data, changed := true }) p c (some (b, i)) d (by
      by_cases hdc : d = c
      · subst hdc
        simpa [State.setBuf] using hd
      · simpa [State.setBuf, hdc] using hd)
    exact ⟨h2.1.trans (h1 d hd).1, h2.2.trans (h1 d hd).2⟩
  · cases hrun
    exact keeps_brelse p _ _
  · rename_i b i _
    cases hrun
    exact Keeps.of_setBuf (c := b) (b := { s.buf b with dirty := true, changed := false }) rfl fun _ => ⟨rfl, rfl⟩

omit [DecidableEq P] in
lemma keeps_ideintr : Keeps s s.ideintr := by
  unfold State.ideintr
  split
  · exact Keeps.of_eq rfl
  · rename_i c _ _
    intro d _
    simp only [State.complete]
    by_cases hd : d = c
    · simp [hd]
    · simp [hd]

theorem keeps_step {l : Label P} (h : Inv s) (hstep : step l s = some s') : Keeps s s' := by
  unfold step at hstep
  split_ifs at hstep
  cases l with
  | bread p dev sector =>
    dsimp only at hstep
    split_ifs at hstep
    cases hstep
    exact Keeps.of_eq rfl
  | store p b data =>
    dsimp only at hstep
    split_ifs at hstep
    cases hstep
    exact Keeps.of_setBuf (c := b) rfl fun _ => ⟨rfl, rfl⟩
  | bwrite p b =>
    dsimp only at hstep
    split_ifs at hstep
    cases hstep
    exact keeps_bwrite p b none
  | log_write p b =>
    dsimp only at hstep
    split_ifs at hstep
    cases hstep
    refine Keeps.of_eq ?_
    unfold State.log_write
    split_ifs <;> rfl
  | brelse p b =>
    dsimp only at hstep
    split_ifs at hstep
    cases hstep
    exact keeps_brelse p b .idle
  | run p => exact keeps_run h hstep
  | ideintr =>
    cases hstep
    exact keeps_ideintr
  | kill p =>
    dsimp only at hstep
    split at hstep <;> cases hstep <;> exact Keeps.of_eq rfl
  | log l =>
    cases hstep
    exact Keeps.of_eq rfl

variable {n : ℕ}

lemma inv_run (r : Lts.Run (Start (P := P)) step n) : ∀ k, k ≤ n → Inv (r.state k) :=
  r.invariant (fun _ h => inv_start h) fun _ _ _ h hstep => inv_step h hstep

lemma fresh_run (r : Lts.Run (Start (P := P)) step n) (hok : r.Meets Proper) : ∀ k, k ≤ n → Fresh (r.state k) := by
  have both : ∀ k, k ≤ n → Inv (r.state k) ∧ Fresh (r.state k) :=
    r.invariant_of hok (P := fun s => Inv s ∧ Fresh s) (fun _ h => ⟨inv_start h, fresh_start h⟩)
      fun _ _ _ h hok hstep => ⟨inv_step h.1 hstep, fresh_step h.2 h.1 hok hstep⟩
  exact fun k hk => (both k hk).2

/-- Every interleaving of the calls: one buffer for a sector of a device, one holder for a buffer, one circular list of
the `NBUF` buffers; no recycling of a busy or dirty buffer; and, among callers that keep to the rules, every `bread`
returns what was last written to its sector. -/
theorem cache_sound (r : Lts.Run (Start (P := P)) step n) :
    (∀ k, k ≤ n →
      (∀ c d dev sector, dev ≠ NODEV → ((r.state k).buf c).Caches dev sector → ((r.state k).buf d).Caches dev sector → c = d) ∧
      (∀ c, ((r.state k).buf c).busy = true ↔ ∃ p, c ∈ (r.state k).own p) ∧
      (∀ p q c, c ∈ (r.state k).own p → c ∈ (r.state k).own q → p = q) ∧
      ∃ l, Chain.Linked (r.state k).next (r.state k).prev l ∧ l.length = NBUF ∧ ∀ c, c ∈ l) ∧
    (∀ k, k < n → Keeps (r.state k) (r.state (k + 1))) ∧
    (r.Meets Proper → ∀ k, k ≤ n → ∀ p dev sector c, Returning (r.state k) p dev sector c →
      ((r.state k).buf c).Caches dev sector ∧ ((r.state k).buf c).data = (r.state k).expected dev sector) := by
  refine ⟨fun k hk => ?_, fun k hk => keeps_step (inv_run r k (by omega)) (r.steps k hk), fun hok k hk p dev sector c hr =>
    (fresh_run r hok k hk).returning hr⟩
  have hi := inv_run r k hk
  refine ⟨fun c d dev sector hdev hc hd => ?_, hi.busy, hi.excl, ?_⟩
  · exact hi.unique c d (hc.1.trans hd.1.symm) (hc.2.trans hd.2.symm) (hc.1 ▸ hdev)
  · obtain ⟨l, hl, hmem⟩ := hi.linked
    refine ⟨l, hl, ?_, hmem⟩
    have := (List.perm_of_nodup_nodup_toFinset_eq hl.nodup (List.nodup_finRange NBUF) (by ext c; simp [hmem c])).length_eq
    simpa using this

instance (s : State P) (l : Label P) : Decidable (Proper s l) := by
  cases l <;> unfold Proper Real <;> infer_instance

/-- `bcache.buf` -/
def buf0 : BufId := ⟨0, by decide⟩

/-- The first process writes sector 7 and the second one reads it. -/
theorem cache_sound_twoCalls : ∃ (r : Lts.Run (Start (P := Fin 2)) step 12) (c : BufId),
    Returning (r.state 12) 1 ROOTDEV 7 c ∧ ((r.state 12).buf c).data = (r.state 12).expected ROOTDEV 7 ∧
      (r.state 12).expected ROOTDEV 7 0 = 5 := by
  have hstart : Start (P := Fin 2) (binit (fun _ _ _ => 0) true ⟨0, 0, false, 0, fun _ => 0⟩) := ⟨_, _, _, rfl⟩
  obtain ⟨r, hok, hend⟩ := Lts.exists_run_of_check (step (P := Fin 2))
    [.bread 0 ROOTDEV 7, .run 0, .run 0, .ideintr, .run 0, .store 0 buf0 (fun _ => 5), .bwrite 0 buf0, .ideintr, .run 0,
      .brelse 0 buf0, .bread 1 ROOTDEV 7, .run 1]
    (fun _ s l => decide (Proper s l))
    (fun s => match s.pc 1 with
      | .test c dev sector _ => (s.buf c).valid && dev == ROOTDEV && sector == 7 && s.expected ROOTDEV 7 0 == 5
      | _ => false)
    hstart (by decide)
  replace hend : (match (r.state 12).pc 1 with
      | .test c dev sector _ =>
        ((r.state 12).buf c).valid && dev == ROOTDEV && sector == 7 && (r.state 12).expected ROOTDEV 7 0 == 5
      | _ => false) = true := hend
  split at hend
  · rename_i c dev sector k hpc
    simp only [Bool.and_eq_true, beq_iff_eq] at hend
    obtain ⟨⟨⟨hv, rfl⟩, rfl⟩, h5⟩ := hend
    have hret : Returning (r.state 12) 1 ROOTDEV 7 c := ⟨k, Or.inl ⟨hpc, hv⟩⟩
    have hproper : r.Meets Proper := fun k hk => by simpa using hok k hk
    exact ⟨r, c, hret, ((cache_sound r).2.2 hproper 12 (le_refl 12) 1 ROOTDEV 7 c hret).2, h5⟩
  · cases hend

end Bcache

end Os132

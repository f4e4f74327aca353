import Os132.Cache.Machine

/-!
# Every sector has one buffer, every buffer one holder

`Inv` relates the links, the flags and what the processes hold. Every step is a step of one of four kinds,
`Inv.quiet`, `Inv.take`, `Inv.poke` and `Inv.brelse`, up to the history and the log.
-/

namespace Os132

namespace Bcache

/-- The buffers that a process in the middle of a call has pointers to. -/
def Use.bufs : Use → List BufId
  | .caller => []
  | .log_write b _ => [b]

def Pc.bufs : Pc → List BufId
  | .idle => []
  | .bget _ _ k => k.bufs
  | .asleep _ _ _ k => k.bufs
  | .test c _ _ k => c :: k.bufs
  | .fill c _ _ k => c :: k.bufs
  | .write c none => [c]
  | .write c (some (b, _)) => [c, b]
  | .logCopy c b _ => [c, b]
  | .logRelse c b _ => [c, b]
  | .logMark b _ => [b]

@[simp] lemma bufs_wake (c : BufId) (pc : Pc) : (pc.wake c).bufs = pc.bufs := by
  unfold Pc.wake
  split
  · split_ifs <;> rfl
  · rfl

/-- The links, the sectors, the flag `B_BUSY` and the holders. -/
structure Inv {P : Type} (s : State P) : Prop where
  linked : ∃ l, Chain.Linked s.next s.prev l ∧ ∀ c, c ∈ l
  unique : ∀ c d, (s.buf c).dev = (s.buf d).dev → (s.buf c).sector = (s.buf d).sector → (s.buf c).dev ≠ NODEV → c = d
  busy : ∀ c, (s.buf c).busy = true ↔ ∃ p, c ∈ s.own p
  excl : ∀ p q c, c ∈ s.own p → c ∈ s.own q → p = q
  uses : ∀ p c, c ∈ (s.pc p).bufs → c ∈ s.own p
  apart : ∀ p, (s.pc p).bufs.Nodup

lemma links_linked (l : List BufId) (hl : l.Nodup) {f g : Option BufId → Option BufId} {m : List BufId}
    (h : Chain.Linked f g m) (hd : ∀ c ∈ l, c ∉ m) :
    ∃ m', Chain.Linked (l.foldl (fun l b => Chain.push b l) (f, g)).1 (l.foldl (fun l b => Chain.push b l) (f, g)).2 m' ∧
      (∀ c, c ∈ l ∨ c ∈ m → c ∈ m') := by
  induction l generalizing f g m with
  | nil => exact ⟨m, h, by simp⟩
  | cons b l ih =>
    have hb := h.push (hd b (by simp))
    obtain ⟨hbl, hl⟩ := List.nodup_cons.1 hl
    obtain ⟨m', hm', hmem⟩ := ih hl hb (fun c hc hcm => by
      rcases List.mem_cons.1 hcm with rfl | hcm
      · exact hbl hc
      · exact hd c (by simp [hc]) hcm)
    refine ⟨m', hm', fun c hc => hmem c ?_⟩
    simp only [List.mem_cons] at hc ⊢
    tauto

variable {P : Type} {s s' : State P}

lemma inv_start (h : Start s) : Inv s := by
  obtain ⟨image, havedisk1, log, rfl⟩ := h
  refine ⟨?_, ?_, ?_, ?_, ?_, ?_⟩
  · obtain ⟨l, hl, hmem⟩ := links_linked (List.finRange NBUF) (List.nodup_finRange NBUF)
      (f := fun _ => none) (g := fun _ => none) (m := []) ⟨⟨rfl, rfl⟩, List.nodup_nil⟩ (by simp)
    exact ⟨l, hl, fun c => hmem c (Or.inl (List.mem_finRange c))⟩
  all_goals simp [binit, Pc.bufs]

namespace Inv

lemma cached_some (h : Inv s) {dev sector : ℕ} {c : BufId} (hc : s.cached dev sector = some c) : (s.buf c).Caches dev sector := by
  obtain ⟨l, hl, -⟩ := h.linked
  rw [State.cached, hl.seek (by have := hl.nodup.length_le_card; simp at this; omega)] at hc
  simpa using List.find?_some hc

lemma cached_none (h : Inv s) {dev sector : ℕ} (hc : s.cached dev sector = none) (c : BufId) : ¬ (s.buf c).Caches dev sector := by
  obtain ⟨l, hl, hmem⟩ := h.linked
  rw [State.cached, hl.seek (by have := hl.nodup.length_le_card; simp at this; omega)] at hc
  simpa using List.find?_eq_none.1 hc c (hmem c)

lemma spare_some (h : Inv s) {c : BufId} (hc : s.spare = some c) : (s.buf c).Spare := by
  obtain ⟨l, hl, -⟩ := h.linked
  rw [State.spare, hl.seek_back (by have := hl.nodup.length_le_card; simp at this; omega)] at hc
  simpa using List.find?_some hc

lemma spare_none (h : Inv s) (hc : s.spare = none) (c : BufId) : ¬ (s.buf c).Spare := by
  obtain ⟨l, hl, hmem⟩ := h.linked
  rw [State.spare, hl.seek_back (by have := hl.nodup.length_le_card; simp at this; omega)] at hc
  simpa using List.find?_eq_none.1 hc c (by simpa using hmem c)

/-- Steps that change neither the links nor what is held, nor which sectors have buffers. -/
lemma quiet (h : Inv s) (hn : s'.next = s.next) (hp : s'.prev = s.prev) (ho : s'.own = s.own)
    (hb : ∀ c, (s'.buf c).busy = (s.buf c).busy ∧ (s'.buf c).dev = (s.buf c).dev ∧ (s'.buf c).sector = (s.buf c).sector)
    (hpc : ∀ q, (s'.pc q).bufs.Sublist (s.pc q).bufs ∨ (∀ c ∈ (s'.pc q).bufs, c ∈ s.own q) ∧ (s'.pc q).bufs.Nodup) : Inv s' := by
  refine ⟨hn ▸ hp ▸ h.linked, fun c d => ?_, fun c => ?_, ho ▸ h.excl, fun q c hc => ?_, fun q => ?_⟩
  · rw [(hb c).2.1, (hb c).2.2, (hb d).2.1, (hb d).2.2]
    exact h.unique c d
  · rw [(hb c).1, ho]
    exact h.busy c
  · rw [ho]
    rcases hpc q with hs | hs
    · exact h.uses q c (hs.subset hc)
    · exact hs.1 c hc
  · rcases hpc q with hs | hs
    · exact hs.nodup (h.apart q)
    · exact hs.2

lemma poke (h : Inv s) {c : BufId} {b : Buf} (hb : b.busy = (s.buf c).busy ∧ b.dev = (s.buf c).dev ∧ b.sector = (s.buf c).sector) :
    Inv (s.setBuf c b) := by
  refine h.quiet rfl rfl rfl (fun d => ?_) fun q => Or.inl (List.Sublist.refl _)
  simp only [State.setBuf]
  split_ifs with hd
  · rw [hd]
    exact hb
  · exact ⟨rfl, rfl, rfl⟩

lemma halt (h : Inv s) (msg : String) : Inv (s.halt msg) :=
  h.quiet rfl rfl rfl (fun _ => ⟨rfl, rfl, rfl⟩) fun _ => Or.inl (List.Sublist.refl _)

lemma record (h : Inv s) (c : BufId) : Inv (s.record c) :=
  h.quiet rfl rfl rfl (fun _ => ⟨rfl, rfl, rfl⟩) fun _ => Or.inl (List.Sublist.refl _)

variable [DecidableEq P]

/-- `bget` takes a buffer that nobody holds, for its own sector or for one that no buffer has. -/
lemma take (h : Inv s) {p : P} {c : BufId} {b : Buf} {pc : Pc} (hfree : (s.buf c).busy = false) (hb : b.busy = true)
    (hsec : b.dev = (s.buf c).dev ∧ b.sector = (s.buf c).sector ∨ ∀ d, ¬ (s.buf d).Caches b.dev b.sector)
    (hpc : pc.bufs.Sublist (c :: (s.pc p).bufs)) : Inv (s.take p c b pc) := by
  have hno : ∀ q, c ∉ s.own q := fun q hq => by
    have := (h.busy c).2 ⟨q, hq⟩
    simp [hfree] at this
  have hu := h.unique
  have hbu := h.busy
  have hex := h.excl
  have hus := h.uses
  have hap := h.apart
  have hcp : c ∉ (s.pc p).bufs := fun hc => hno p (h.uses p c hc)
  have hsub : ∀ d ∈ pc.bufs, d = c ∨ d ∈ (s.pc p).bufs := fun d hd => by simpa using hpc.subset hd
  have hnd : pc.bufs.Nodup := hpc.nodup (List.nodup_cons.2 ⟨hcp, h.apart p⟩)
  unfold Buf.Caches at hsec
  refine ⟨h.linked, ?_, ?_, ?_, ?_, ?_⟩ <;> simp only [State.take, State.goto, State.setBuf] <;> grind

lemma goto (h : Inv s) {p : P} {x : Pc} (hpc : x.bufs.Sublist (s.pc p).bufs) : Inv (s.goto p x) := by
  refine h.quiet rfl rfl rfl (fun _ => ⟨rfl, rfl, rfl⟩) fun q => Or.inl ?_
  simp only [State.goto]
  split_ifs with hq
  · rw [hq]
    exact hpc
  · exact List.Sublist.refl _

lemma bget (h : Inv s) {p : P} {dev sector : ℕ} {k : Use} (hpc : (s.pc p).bufs = k.bufs) : Inv (s.bget p dev sector k) := by
  unfold State.bget
  split
  · split_ifs with hb
    · exact h.goto (by rw [hpc]; exact List.Sublist.refl _)
    · exact h.take (by simpa using hb) rfl (Or.inl ⟨rfl, rfl⟩) (by rw [hpc]; exact List.Sublist.refl _)
  · rename_i hnone
    split
    · rename_i c hc
      have hf := h.spare_some hc
      exact h.take hf.1 rfl (Or.inr fun d => h.cached_none hnone d) (by rw [hpc]; exact List.Sublist.refl _)
    · exact h.halt _

lemma iderw (h : Inv s) {p : P} {c : BufId} {pc : Pc}
    (hpc : pc.bufs.Sublist (s.pc p).bufs ∨ (∀ d ∈ pc.bufs, d ∈ s.own p) ∧ pc.bufs.Nodup) : Inv (s.iderw p c pc) := by
  unfold State.iderw
  split_ifs
  · exact h.halt _
  · exact h.halt _
  · exact h.halt _
  · refine h.quiet rfl rfl rfl (fun _ => ⟨rfl, rfl, rfl⟩) fun q => ?_
    simp only [State.goto]
    split_ifs with hq
    · rw [hq]
      exact hpc
    · exact Or.inl (List.Sublist.refl _)

lemma returns (h : Inv s) {p : P} {c : BufId} {k : Use} (hpc : (s.pc p).bufs = c :: k.bufs) : Inv (s.returns p c k) := by
  cases k with
  | caller => exact h.goto (by simp [Pc.bufs])
  | log_write b i => exact h.goto (by rw [hpc]; exact List.Sublist.refl _)

lemma bwrite (h : Inv s) {p : P} {c : BufId} {k : Option (BufId × ℕ)}
    (hpc : (Pc.write c k).bufs.Sublist (s.pc p).bufs ∨ (∀ d ∈ (Pc.write c k).bufs, d ∈ s.own p) ∧ (Pc.write c k).bufs.Nodup) :
    Inv (s.bwrite p c k) := by
  unfold State.bwrite
  split_ifs
  · exact h.halt _
  · refine Inv.iderw (Inv.poke (h.record c) ?_) hpc
    exact ⟨rfl, rfl, rfl⟩

lemma brelse (h : Inv s) {p : P} {c : BufId} {pc : Pc} (hc : c ∈ s.own p)
    (hpc : ∀ d ∈ pc.bufs, d ≠ c ∧ d ∈ s.own p) (hnd : pc.bufs.Nodup) :
    Inv (s.brelse p c pc) := by
  unfold State.brelse
  split_ifs
  · exact h.halt _
  · have hu := h.unique
    have hbu := h.busy
    have hex := h.excl
    have hus := h.uses
    have hap := h.apart
    have hw : ∀ q, ((s.pc q).wake c).bufs = (s.pc q).bufs := fun q => bufs_wake c _
    refine ⟨?_, ?_, ?_, ?_, ?_, ?_⟩
    · obtain ⟨l, hl, hmem⟩ := h.linked
      refine ⟨c :: l.erase c, (hl.unlink (hmem c)).push hl.nodup.not_mem_erase, fun d => ?_⟩
      by_cases hd : d = c
      · simp [hd]
      · simp [List.mem_erase_of_ne hd, hmem d]
    all_goals simp only [State.setBuf]; grind

omit [DecidableEq P] in
lemma complete (h : Inv s) (c : BufId) : Inv (s.complete c) := by
  refine h.quiet rfl rfl rfl (fun d => ?_) fun q => Or.inl ?_
  · simp only [State.complete]
    by_cases hd : d = c
    · simp [hd]
    · simp [hd]
  · simp [State.complete]

lemma log_write (h : Inv s) {p : P} {b : BufId} (hb : b ∈ s.own p) : Inv (s.log_write p b) := by
  unfold State.log_write
  split_ifs
  · exact h.halt _
  · exact h.halt _
  · refine h.quiet rfl rfl rfl (fun _ => ⟨rfl, rfl, rfl⟩) fun q => ?_
    simp only [State.goto]
    split_ifs with hq
    · right
      simpa [Pc.bufs, Use.bufs, hq] using hb
    · exact Or.inl (List.Sublist.refl _)

lemma mark (h : Inv s) {p : P} {b : BufId} {i : ℕ} : Inv (s.mark p b i) := by
  have hp : Inv ((s.record b).setBuf b { s.buf b with dirty := true, changed := false }) := by
    refine Inv.poke (h.record b) ?_
    exact ⟨rfl, rfl, rfl⟩
  have hg := hp.goto (p := p) (x := .idle) (by simp [Pc.bufs])
  exact hg.quiet rfl rfl rfl (fun _ => ⟨rfl, rfl, rfl⟩) fun _ => Or.inl (List.Sublist.refl _)

omit [DecidableEq P] in
lemma ideintr (h : Inv s) : Inv s.ideintr := by
  unfold State.ideintr
  split
  · exact h
  · rename_i c q _
    exact (h.complete c).quiet rfl rfl rfl (fun _ => ⟨rfl, rfl, rfl⟩) fun _ => Or.inl (List.Sublist.refl _)

lemma run {p : P} (h : Inv s) (hrun : s.run p = some s') : Inv s' := by
  have huses := h.uses p
  have hap := h.apart p
  unfold State.run at hrun
  split at hrun <;> rename_i hpc <;> rw [hpc] at huses hap <;> simp only [Pc.bufs] at huses hap
  · cases hrun
  · cases hrun
  · cases hrun
    exact h.bget (by rw [hpc]; rfl)
  · split_ifs at hrun <;> cases hrun
    · exact h.returns (by rw [hpc]; rfl)
    · exact h.iderw (Or.inl (by rw [hpc]; exact List.Sublist.refl _))
  · split_ifs at hrun
    cases hrun
    exact h.returns (by rw [hpc]; rfl)
  · split_ifs at hrun
    cases hrun
    exact h.goto (by simp [Pc.bufs])
  · split_ifs at hrun
    cases hrun
    exact h.goto (by rw [hpc]; exact List.Sublist.refl _)
  · rename_i c b i
    cases hrun
    refine Inv.bwrite (Inv.poke h ?_) (Or.inr ⟨huses, hap⟩)
    exact ⟨rfl, rfl, rfl⟩
  · rename_i c b i
    cases hrun
    refine h.brelse (huses c (by simp)) (fun d hd => ?_) (by simp [Pc.bufs])
    have hdb : d = b := by simpa [Pc.bufs] using hd
    rw [hdb]
    refine ⟨?_, huses b (by simp)⟩
    rintro rfl
    simp at hap
  · cases hrun
    exact h.mark

end Inv

lemma idle_iff {p : P} : s.Idle p = true ↔ s.pc p = .idle := by
  unfold State.Idle
  split <;> simp_all

variable [DecidableEq P]

theorem inv_step {l : Label P} (h : Inv s) (hstep : step l s = some s') : Inv s' := by
  unfold step at hstep
  split_ifs at hstep
  cases l with
  | bread p dev sector =>
    dsimp only at hstep
    split_ifs at hstep
    cases hstep
    exact h.goto (by simp [Pc.bufs, Use.bufs])
  | store p b data =>
    dsimp only at hstep
    split_ifs at hstep
    cases hstep
    exact h.poke ⟨rfl, rfl, rfl⟩
  | bwrite p b =>
    dsimp only at hstep
    split_ifs at hstep with hp
    cases hstep
    exact h.bwrite (Or.inr (by simpa [Pc.bufs] using hp.2))
  | log_write p b =>
    dsimp only at hstep
    split_ifs at hstep with hp
    cases hstep
    exact h.log_write hp.2
  | brelse p b =>
    dsimp only at hstep
    split_ifs at hstep with hp
    cases hstep
    exact h.brelse hp.2 (by simp [Pc.bufs]) (by simp [Pc.bufs])
  | run p => exact h.run hstep
  | ideintr =>
    cases hstep
    exact h.ideintr
  | kill p =>
    dsimp only at hstep
    split at hstep <;> cases hstep
    · rename_i hpc
      exact h.goto (by rw [hpc]; exact List.Sublist.refl _)
    · exact h
  | log l =>
    cases hstep
    exact h.quiet rfl rfl rfl (fun _ => ⟨rfl, rfl, rfl⟩) fun _ => Or.inl (List.Sublist.refl _)

end Bcache

end Os132

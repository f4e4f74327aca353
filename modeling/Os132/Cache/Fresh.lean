import Os132.Cache.Invariant

/-!
# What a bread returns

`Fresh` relates the contents of buffers and disk to what was last written through the cache. It holds in runs
whose calls are `Proper`: they name sectors that a disk has, and a buffer that has been changed is written before it
is released. The theorem about whole runs is at the end.
-/

namespace Os132

namespace Bcache

/-- A sector of disk 0 or 1 with a number that fits the disk's registers. -/
def Real (dev sector : ℕ) : Prop := dev < 2 ∧ sector < 2 ^ 28

/-- The buffer whose request a process waits for. -/
def Pc.waits : Pc → Option BufId
  | .fill c _ _ _ => some c
  | .write c _ => some c
  | _ => none

/-- `bread` has not yet read `c`. -/
def Pc.Unread (c : BufId) : Pc → Prop
  | .test d _ _ _ => d = c
  | .fill d _ _ _ => d = c
  | _ => False

/-- Places where a process waits for nothing and may change a buffer that it holds. -/
def Pc.Steady : Pc → Prop
  | .idle => True
  | .logCopy .. => True
  | .logMark .. => True
  | _ => False

/-- What a process knows at each place. -/
def At (buf : BufId → Buf) (queue : List BufId) : Pc → Prop
  | .bget dev sector _ => Real dev sector
  | .asleep _ dev sector _ => Real dev sector
  | .test c dev sector _ => (buf c).Caches dev sector ∧ (buf c).changed = false
  | .fill c dev sector _ =>
    (buf c).Caches dev sector ∧ (buf c).changed = false ∧ (buf c).dirty = false ∧ ((buf c).valid = false → c ∈ queue)
  | .write c _ => (buf c).changed = false ∧ ((buf c).dirty = true → c ∈ queue)
  | .logRelse c _ _ => (buf c).changed = false
  | _ => True

lemma At.frame {buf buf' : BufId → Buf} {queue z : List BufId} {pc : Pc} (h : At buf queue pc)
    (hb : ∀ c ∈ pc.bufs, buf' c = buf c ∧ (c ∈ queue → c ∈ z)) : At buf' z pc := by
  unfold At at h ⊢
  split at h <;> simp only [Pc.bufs, List.mem_cons, forall_eq_or_imp] at hb ⊢
  · exact h
  · exact h
  · rw [hb.1.1]
    exact h
  · rw [hb.1.1]
    exact ⟨h.1, h.2.1, h.2.2.1, fun hv => hb.1.2 (h.2.2.2 hv)⟩
  · rename_i c k
    have hc : buf' c = buf c ∧ (c ∈ queue → c ∈ z) := by
      cases k <;> simp_all
    rw [hc.1]
    exact ⟨h.1, fun hd => hc.2 (h.2 hd)⟩
  · rw [hb.1.1]
    exact h

lemma At.wake {buf : BufId → Buf} {queue : List BufId} {pc : Pc} (h : At buf queue pc) (c : BufId) : At buf queue (pc.wake c) := by
  unfold Pc.wake
  split
  · split_ifs
    · exact h
    · exact h
  · exact h

lemma At.steady {buf : BufId → Buf} {queue : List BufId} {pc : Pc} (h : pc.Steady) : At buf queue pc := by
  cases pc <;> simp_all [Pc.Steady, At]

@[simp] lemma waits_wake (c : BufId) (pc : Pc) : (pc.wake c).waits = pc.waits := by
  unfold Pc.wake
  split
  · split_ifs <;> rfl
  · rfl

@[simp] lemma unread_wake (c d : BufId) (pc : Pc) : (pc.wake c).Unread d ↔ pc.Unread d := by
  unfold Pc.wake
  split
  · split_ifs <;> rfl
  · rfl

lemma waits_some {pc : Pc} {c : BufId} (h : pc.waits = some c) :
    (∃ dev sector k, pc = .fill c dev sector k) ∨ ∃ k, pc = .write c k := by
  cases pc <;> simp_all [Pc.waits]

lemma steady_waits {pc : Pc} (h : pc.Steady) : pc.waits = none := by
  cases pc <;> simp_all [Pc.Steady, Pc.waits]

lemma steady_unread {pc : Pc} (h : pc.Steady) (c : BufId) : ¬ pc.Unread c := by
  cases pc <;> simp_all [Pc.Steady, Pc.Unread]

/-- The contents of the buffers and the disk. -/
structure Fresh {P : Type} (s : State P) : Prop where
  real : ∀ c, Real (s.buf c).dev (s.buf c).sector ∨
    (s.buf c).dev = NODEV ∧ (s.buf c).busy = false ∧ (s.buf c).valid = false ∧ (s.buf c).dirty = false
  dirty : ∀ c, (s.buf c).dirty = true → (s.buf c).valid = true
  changed : ∀ c, (s.buf c).changed = true → (s.buf c).busy = true ∧ (s.buf c).valid = true
  data : ∀ c, (s.buf c).valid = true → (s.buf c).changed = false → (s.buf c).data = s.expected (s.buf c).dev (s.buf c).sector
  clean : ∀ c, (s.buf c).dirty = false → Real (s.buf c).dev (s.buf c).sector →
    s.disk (s.buf c).dev (s.buf c).sector = s.expected (s.buf c).dev (s.buf c).sector
  uncached : ∀ dev sector, Real dev sector → (∀ c, ¬ (s.buf c).Caches dev sector) → s.disk dev sector = s.expected dev sector
  got : ∀ p c, c ∈ s.own p → (s.buf c).valid = true ∨ (s.pc p).Unread c
  place : ∀ p, At s.buf s.idequeue (s.pc p)
  queue : ∀ c ∈ s.idequeue, (s.buf c).ready = false ∧ ∃ p, c ∈ s.own p ∧ (s.pc p).waits = some c
  nodup : s.idequeue.Nodup

variable {P : Type} {s s' : State P}

lemma fresh_start (h : Start s) : Fresh s := by
  obtain ⟨image, havedisk1, log, rfl⟩ := h
  constructor <;> simp [binit, State.expected, At]

namespace Fresh

/-- The log, the links and a panic do not matter. -/
lemma congr (h : Fresh s) (hb : s'.buf = s.buf) (ho : s'.own = s.own) (hp : s'.pc = s.pc) (hq : s'.idequeue = s.idequeue)
    (hd : s'.disk = s.disk) (hi : s'.image = s.image) (hl : s'.last = s.last) : Fresh s' := by
  have he : s'.expected = s.expected := by
    unfold State.expected
    rw [hi, hl]
  constructor
  · rw [hb]; exact h.real
  · rw [hb]; exact h.dirty
  · rw [hb]; exact h.changed
  · rw [hb, he]; exact h.data
  · rw [hb, he, hd]; exact h.clean
  · rw [hb, he, hd]; exact h.uncached
  · rw [hb, ho, hp]; exact h.got
  · rw [hb, hp, hq]; exact h.place
  · rw [hb, ho, hp, hq]; exact h.queue
  · rw [hq]; exact h.nodup

lemma halt (h : Fresh s) (msg : String) : Fresh (s.halt msg) := h.congr rfl rfl rfl rfl rfl rfl rfl

lemma notMem_queue (h : Fresh s) (hi : Inv s) {p : P} {c : BufId} (hc : c ∈ s.own p) (hw : (s.pc p).waits = none) :
    c ∉ s.idequeue := by
  intro hq
  obtain ⟨-, q, ho, hwq⟩ := h.queue c hq
  have hpq := hi.excl p q c hc ho
  subst hpq
  rw [hw] at hwq
  cases hwq

variable [DecidableEq P]

/-- A process goes on, without leaving a request or a read behind. -/
lemma goto (h : Fresh s) {p : P} {x : Pc} (hat : At s.buf s.idequeue x)
    (hgot : ∀ c, (s.pc p).Unread c → (s.buf c).valid = true ∨ x.Unread c)
    (hq : ∀ c, (s.pc p).waits = some c → (s.buf c).ready = true ∨ x.waits = some c) : Fresh (s.goto p x) := by
  refine ⟨h.real, h.dirty, h.changed, h.data, h.clean, h.uncached, fun q c hc => ?_, fun q => ?_, fun c hc => ?_, h.nodup⟩
  · simp only [State.goto]
    split_ifs with hqp
    · subst hqp
      rcases h.got q c hc with hv | hu
      · exact Or.inl hv
      · exact hgot c hu
    · exact h.got q c hc
  · simp only [State.goto]
    split_ifs with hqp
    · exact hat
    · exact h.place q
  · obtain ⟨hr, q, ho, hw⟩ := h.queue c hc
    refine ⟨hr, q, ho, ?_⟩
    simp only [State.goto]
    split_ifs with hqp
    · subst hqp
      rcases hq c hw with hr' | hw'
      · have hr : (s.buf c).ready = false := hr
        rw [hr] at hr'
        cases hr'
      · exact hw'
    · exact hw

/-- `iderw`: the request joins the queue. -/
lemma enqueue (h : Fresh s) {p : P} {c : BufId} {pc : Pc} (hc : c ∈ s.own p) (hr : (s.buf c).ready = false)
    (hw : (s.pc p).waits = none) (hin : c ∉ s.idequeue) (hpc : pc.waits = some c) (hat : At s.buf (s.idequeue ++ [c]) pc)
    (hgot : ∀ d, (s.pc p).Unread d → (s.buf d).valid = true ∨ pc.Unread d) :
    Fresh { s.goto p pc with idequeue := s.idequeue ++ [c] } := by
  refine ⟨h.real, h.dirty, h.changed, h.data, h.clean, h.uncached, fun q d hd => ?_, fun q => ?_, fun d hd => ?_, ?_⟩
  · have hd : d ∈ s.own q := hd
    have := h.got q d hd
    simp only [State.goto]
    grind
  · have := (h.place q).frame (z := s.idequeue ++ [c]) fun d _ => ⟨rfl, fun hd => List.mem_append_left _ hd⟩
    simp only [State.goto]
    grind
  · simp only [State.goto] at hd ⊢
    rcases List.mem_append.1 hd with hd | hd
    · obtain ⟨hrd, q, ho, hwq⟩ := h.queue d hd
      refine ⟨hrd, q, ho, ?_⟩
      have hqp : q ≠ p := by
        rintro rfl
        rw [hw] at hwq
        cases hwq
      rwa [if_neg hqp]
    · have hd : d = c := by simpa using hd
      subst hd
      exact ⟨hr, p, hc, by simpa using hpc⟩
  · exact List.nodup_append.2 ⟨h.nodup, List.nodup_singleton c, by grind⟩

/-- `bget` gets a buffer that nobody holds, for its own sector or for one that no buffer has. -/
lemma take (h : Fresh s) (hi : Inv s) {p : P} {c : BufId} {b : Buf} {dev sector : ℕ} {k : Use}
    (hpc : s.pc p = .bget dev sector k) (hfree : (s.buf c).busy = false) (hb : b.Caches dev sector) (hbusy : b.busy = true)
    (hch : b.changed = (s.buf c).changed)
    (hsec : b = { s.buf c with busy := true } ∨
      (s.buf c).dirty = false ∧ b.valid = false ∧ b.dirty = false ∧ ∀ d, ¬ (s.buf d).Caches dev sector) :
    Fresh (s.take p c b (.test c dev sector k)) := by
  have hreal : Real dev sector := by
    have := h.place p
    rwa [hpc] at this
  have hno : ∀ q, c ∉ s.own q := fun q hq => by
    have := (hi.busy c).2 ⟨q, hq⟩
    simp [hfree] at this
  have hnq : c ∉ s.idequeue := fun hq => by
    obtain ⟨-, q, ho, -⟩ := h.queue c hq
    exact hno q ho
  have hunch : (s.buf c).changed = false := by
    by_contra hc
    have := (h.changed c (by simpa using hc)).1
    simp [hfree] at this
  have hdirty := h.dirty c
  have hcd := h.data c
  have hcc := h.clean c
  obtain ⟨hbd, hbs⟩ := hb
  refine ⟨fun d => ?_, fun d => ?_, fun d => ?_, fun d => ?_, fun d => ?_, fun dev' sector' hr hn => ?_, fun q d hd => ?_,
    fun q => ?_, fun d hd => ?_, h.nodup⟩
  · simp only [State.take, State.goto, State.setBuf]
    split_ifs
    · exact Or.inl (by rwa [hbd, hbs])
    · exact h.real d
  · simp only [State.take, State.goto, State.setBuf]
    split_ifs
    · grind
    · exact h.dirty d
  · simp only [State.take, State.goto, State.setBuf]
    split_ifs
    · grind
    · exact h.changed d
  · simp only [State.take, State.goto, State.setBuf]
    split_ifs
    · intro hv hc'
      rcases hsec with rfl | hsec
      · exact hcd hv hunch
      · simp [hsec.2.1] at hv
    · exact h.data d
  · simp only [State.take, State.goto, State.setBuf]
    split_ifs
    · intro hd hr
      rcases hsec with rfl | hsec
      · exact hcc hd hr
      · rw [hbd, hbs]
        exact h.uncached dev sector hreal hsec.2.2.2
    · exact h.clean d
  · have hn' : ∀ d, d ≠ c → ¬ (s.buf d).Caches dev' sector' := fun d hdc => by
      have := hn d
      simpa only [State.take, State.goto, State.setBuf, if_neg hdc] using this
    have hnc : ¬ b.Caches dev' sector' := by
      have := hn c
      simpa only [State.take, State.goto, State.setBuf, if_true] using this
    change s.disk dev' sector' = s.expected dev' sector'
    by_cases hc : (s.buf c).Caches dev' sector'
    · rcases hsec with rfl | hsec
      · exact absurd hc hnc
      · have := hcc hsec.1
        rw [hc.1, hc.2] at this
        exact this hr
    · exact h.uncached dev' sector' hr fun d => by
        by_cases hdc : d = c
        · rwa [hdc]
        · exact hn' d hdc
  · have hown := h.got q d
    have hun : (Pc.test c dev sector k).Unread c := rfl
    have hpu : ¬ (s.pc p).Unread d := by simp [hpc, Pc.Unread]
    have hnod := hno q
    simp only [State.take, State.goto, State.setBuf] at hd ⊢
    grind
  · have hother : q ≠ p → At (fun d => if d = c then b else s.buf d) s.idequeue (s.pc q) := fun _ =>
      (h.place q).frame fun d hd => ⟨if_neg fun (hdc : d = c) => hno q (hdc ▸ hi.uses q d hd), id⟩
    simp only [State.take, State.goto, State.setBuf]
    split_ifs with hqp
    · exact ⟨by simpa using ⟨hbd, hbs⟩, by simpa [hch] using hunch⟩
    · exact hother hqp
  · simp only [State.take, State.goto, State.setBuf] at hd ⊢
    obtain ⟨hrd, q, ho, hwq⟩ := h.queue d hd
    have hdc : d ≠ c := fun hdc => hnq (hdc ▸ hd)
    refine ⟨by rwa [if_neg hdc], q, ?_, ?_⟩
    · split_ifs
      · exact Finset.mem_insert_of_mem ho
      · exact ho
    · have hqp : q ≠ p := by
        rintro rfl
        rw [hpc] at hwq
        cases hwq
      rwa [if_neg hqp]

/-- The holder changes what is in a buffer, and records it as written through the cache or not. -/
lemma poke (h : Fresh s) (hi : Inv s) {p : P} {c : BufId} {b : Buf} {l : ℕ → ℕ → Option Block} (hc : c ∈ s.own p)
    (hp : (s.pc p).Steady) (hb : b.dev = (s.buf c).dev ∧ b.sector = (s.buf c).sector ∧ b.busy = (s.buf c).busy ∧ b.valid = (s.buf c).valid)
    (hst : b.changed = true ∧ b.dirty = (s.buf c).dirty ∧ l = s.last ∨
      b.changed = false ∧ b.dirty = true ∧ b.data = (s.buf c).data ∧ l = (s.record c).last) :
    Fresh { s.setBuf c b with last := l } := by
  have hv : (s.buf c).valid = true := (h.got p c hc).resolve_right (steady_unread hp c)
  have hbusy : (s.buf c).busy = true := (hi.busy c).2 ⟨p, hc⟩
  have hnq : c ∉ s.idequeue := h.notMem_queue hi hc (steady_waits hp)
  have hreal : Real (s.buf c).dev (s.buf c).sector := (h.real c).resolve_right (by simp [hbusy])
  obtain ⟨hbd, hbs, hbb, hbv⟩ := hb
  have hne : ∀ d, d ≠ c → ¬ ((s.buf c).dev = (s.buf d).dev ∧ (s.buf c).sector = (s.buf d).sector) := fun d hdc he => by
    have hnd : (s.buf c).dev ≠ NODEV := by
      have := hreal.1
      unfold NODEV
      omega
    exact hdc (hi.unique c d he.1 he.2 hnd).symm
  -- other sectors are as they were
  have hlast : ∀ dev sector, ¬ ((s.buf c).dev = dev ∧ (s.buf c).sector = sector) → l dev sector = s.last dev sector := by
    intro dev sector hn
    rcases hst with hst | hst
    · rw [hst.2.2]
    · rw [hst.2.2.2]
      exact if_neg hn
  have hexp : ∀ dev sector, ¬ ((s.buf c).dev = dev ∧ (s.buf c).sector = sector) →
      State.expected { s.setBuf c b with last := l } dev sector = s.expected dev sector := by
    intro dev sector hn
    simp only [State.expected, State.setBuf, hlast dev sector hn]
  refine ⟨fun d => ?_, fun d => ?_, fun d => ?_, fun d => ?_, fun d => ?_, fun dev' sector' hr hn => ?_, fun q d hd => ?_,
    fun q => ?_, fun d hd => ?_, h.nodup⟩
  · simp only [State.setBuf]
    split_ifs
    · exact Or.inl (by rwa [hbd, hbs])
    · exact h.real d
  · simp only [State.setBuf]
    split_ifs
    · exact fun _ => hbv.trans hv
    · exact h.dirty d
  · simp only [State.setBuf]
    split_ifs
    · exact fun _ => ⟨hbb.trans hbusy, hbv.trans hv⟩
    · exact h.changed d
  · by_cases hdc : d = c
    · subst hdc
      intro _ hch
      rcases hst with hst | hst
      · simp [State.setBuf, hst.1] at hch
      · simp [State.expected, State.setBuf, hst.2.2.1, hst.2.2.2, State.record, hbd, hbs]
    · have := hexp _ _ (hne d hdc)
      simp only [State.setBuf, if_neg hdc] at this ⊢
      rw [this]
      exact h.data d
  · by_cases hdc : d = c
    · subst hdc
      intro hd' hr'
      rcases hst with hst | hst
      · have hx : ∀ dev sector, State.expected { s.setBuf d b with last := l } dev sector = s.expected dev sector := by
          intro dev sector
          simp only [State.expected, State.setBuf, hst.2.2]
        rw [hx]
        simp only [State.setBuf, if_true] at hd' ⊢
        rw [hbd, hbs]
        exact h.clean d (hst.2.1.symm.trans hd') hreal
      · simp [State.setBuf, hst.2.1] at hd'
    · have := hexp _ _ (hne d hdc)
      simp only [State.setBuf, if_neg hdc] at this ⊢
      rw [this]
      exact h.clean d
  · have hn' : ∀ d, ¬ (s.buf d).Caches dev' sector' := fun d => by
      have := hn d
      by_cases hdc : d = c
      · subst hdc
        simp only [State.setBuf, if_true, Buf.Caches, hbd, hbs] at this
        exact this
      · simpa only [State.setBuf, if_neg hdc] using this
    rw [hexp dev' sector' (hn' c)]
    exact h.uncached dev' sector' hr hn'
  · simp only [State.setBuf] at hd ⊢
    split_ifs with hdc
    · exact Or.inl (hbv.trans hv)
    · exact h.got q d hd
  · by_cases hqp : q = p
    · subst hqp
      exact At.steady hp
    · exact (h.place q).frame fun d hd => ⟨if_neg fun (hdc : d = c) => hqp (hi.excl q p c (hdc ▸ hi.uses q d hd) hc), id⟩
  · have hdc : d ≠ c := fun hdc => hnq (hdc ▸ hd)
    simp only [State.setBuf, if_neg hdc]
    exact h.queue d hd

/-- A buffer that has not been changed since it was written is released. -/
lemma brelse (h : Fresh s) (hi : Inv s) {p : P} {c : BufId} {pc : Pc} (hc : c ∈ s.own p) (hp : (s.pc p).waits = none)
    (hun : ∀ d, ¬ (s.pc p).Unread d) (hch : (s.buf c).changed = false) (hpc : pc.Steady) : Fresh (s.brelse p c pc) := by
  unfold State.brelse
  split_ifs
  · exact h.halt _
  · have hv : (s.buf c).valid = true := (h.got p c hc).resolve_right (hun c)
    have hbusy : (s.buf c).busy = true := (hi.busy c).2 ⟨p, hc⟩
    have hreal : Real (s.buf c).dev (s.buf c).sector := (h.real c).resolve_right (by simp [hbusy])
    have hnq : c ∉ s.idequeue := h.notMem_queue hi hc hp
    refine ⟨fun d => ?_, fun d => ?_, fun d => ?_, fun d => ?_, fun d => ?_, fun dev' sector' hr hn => ?_, fun q d hd => ?_,
      fun q => ?_, fun d hd => ?_, h.nodup⟩
    · simp only [State.setBuf]
      split_ifs with hdc
      · exact Or.inl hreal
      · exact h.real d
    · simp only [State.setBuf]
      split_ifs with hdc
      · exact h.dirty c
      · exact h.dirty d
    · simp only [State.setBuf]
      split_ifs with hdc
      · intro hx
        simp [hch] at hx
      · exact h.changed d
    · have := h.data d
      by_cases hdc : d = c
      · subst hdc
        simpa [State.setBuf, State.expected] using this
      · simpa [State.setBuf, State.expected, hdc] using this
    · have := h.clean d
      by_cases hdc : d = c
      · subst hdc
        simpa [State.setBuf, State.expected] using this
      · simpa [State.setBuf, State.expected, hdc] using this
    · refine h.uncached dev' sector' hr fun d hd => hn d ?_
      by_cases hdc : d = c
      · subst hdc
        simpa [State.setBuf, Buf.Caches] using hd
      · simpa [State.setBuf, hdc] using hd
    · have hown : d ∈ s.own q := by
        simp only at hd
        split_ifs at hd
        · exact Finset.mem_of_mem_erase hd
        · exact hd
      by_cases hdc : d = c
      · subst hdc
        exact Or.inl (by simpa [State.setBuf] using hv)
      · have hg := h.got q d hown
        by_cases hqp : q = p
        · subst hqp
          exact Or.inl (by simpa [State.setBuf, hdc] using hg.resolve_right (hun d))
        · simpa [State.setBuf, hdc, hqp] using hg
    · by_cases hqp : q = p
      · subst hqp
        simp only [if_true]
        exact At.steady hpc
      · simp only [if_neg hqp]
        exact At.wake ((h.place q).frame fun d hd => ⟨if_neg fun (hdc : d = c) => hqp (hi.excl q p c (hdc ▸ hi.uses q d hd) hc), id⟩) c
    · have hdc : d ≠ c := fun hdc => hnq (hdc ▸ hd)
      obtain ⟨hrd, q, ho, hwq⟩ := h.queue d hd
      have hqp : q ≠ p := by
        rintro rfl
        rw [hp] at hwq
        cases hwq
      exact ⟨by simpa [State.setBuf, hdc] using hrd, q, by simpa [hqp] using ho, by simpa [hqp] using hwq⟩

omit [DecidableEq P] in
/-- The request at the head of the queue is complete. -/
lemma ideintr (h : Fresh s) (hi : Inv s) : Fresh s.ideintr := by
  unfold State.ideintr
  split
  · exact h
  rename_i c rest hqueue
  have hcq : c ∈ s.idequeue := by simp [hqueue]
  obtain ⟨hcrest, hnd⟩ := List.nodup_cons.1 (hqueue ▸ h.nodup)
  obtain ⟨hr, p, hc, hw⟩ := h.queue c hcq
  have hbusy : (s.buf c).busy = true := (hi.busy c).2 ⟨p, hc⟩
  have hreal : Real (s.buf c).dev (s.buf c).sector := (h.real c).resolve_right (by simp [hbusy])
  have hdev : (s.buf c).dev % 2 = (s.buf c).dev := Nat.mod_eq_of_lt hreal.1
  have hsec : (s.buf c).sector % 2 ^ 28 = (s.buf c).sector := Nat.mod_eq_of_lt hreal.2
  have hch : (s.buf c).changed = false := by
    have := h.place p
    rcases waits_some hw with ⟨dev, sector, k, hpc⟩ | ⟨k, hpc⟩ <;> rw [hpc] at this
    · exact this.2.1
    · exact this.1
  have hne : ∀ d, d ≠ c → ¬ ((s.buf d).dev = (s.buf c).dev ∧ (s.buf d).sector = (s.buf c).sector) := fun d hdc he => by
    have hnd : (s.buf d).dev ≠ NODEV := by
      have := hreal.1
      unfold NODEV
      omega
    exact hdc (hi.unique d c he.1 he.2 hnd)
  have hdirty := h.dirty c
  have hdata := h.data c
  have hclean := h.clean c
  refine ⟨fun d => ?_, fun d => ?_, fun d => ?_, fun d => ?_, fun d => ?_, fun dev' sector' hr' hn => ?_, fun q d hd => ?_,
    fun q => ?_, fun d hd => ?_, hnd⟩
  · by_cases hdc : d = c
    · subst hdc
      exact Or.inl (by simpa [State.complete] using hreal)
    · simpa [State.complete, hdc] using h.real d
  · by_cases hdc : d = c
    · simp [State.complete, hdc]
    · simpa [State.complete, hdc] using h.dirty d
  · by_cases hdc : d = c
    · subst hdc
      simp [State.complete, hch]
    · simpa [State.complete, hdc] using h.changed d
  · by_cases hdc : d = c
    · subst hdc
      intro _ _
      simp only [State.complete, if_true, State.expected, hdev, hsec] at hdata hclean ⊢
      split_ifs with hdd
      · exact hdata (hdirty hdd) hch
      · exact hclean (by simpa using hdd) hreal
    · simpa [State.complete, hdc, State.expected] using h.data d
  · by_cases hdc : d = c
    · subst hdc
      intro _ _
      simp only [State.complete, if_true, State.expected, hdev, hsec, and_true] at hdata hclean ⊢
      split_ifs with hdd
      · exact hdata (hdirty hdd) hch
      · exact hclean (by simpa using hdd) hreal
    · have hx := hne d hdc
      have := h.clean d
      simp only [State.complete, if_neg hdc, State.expected, hdev, hsec] at this ⊢
      rwa [if_neg fun hx' => hx hx'.2]
  · have hx : ¬ (dev' = (s.buf c).dev ∧ sector' = (s.buf c).sector) := fun hx => hn c (by
      simp [State.complete, Buf.Caches, hx.1, hx.2])
    have := h.uncached dev' sector' hr' fun d hd => hn d (by
      by_cases hdc : d = c
      · subst hdc
        simpa [State.complete, Buf.Caches] using hd
      · simpa [State.complete, hdc] using hd)
    simp only [State.complete, State.expected, hdev, hsec] at this ⊢
    rwa [if_neg fun hx' => hx hx'.2]
  · have hd : d ∈ s.own q := hd
    by_cases hdc : d = c
    · exact Or.inl (by simp [State.complete, hdc])
    · simpa [State.complete, hdc] using h.got q d hd
  · refine At.wake ?_ c
    by_cases hqp : q = p
    · have hpl := h.place q
      subst hqp
      rcases waits_some hw with ⟨dev, sector, k, hpc⟩ | ⟨k, hpc⟩ <;> rw [hpc] at hpl ⊢
      · simpa [State.complete, At, Buf.Caches, hch] using hpl.1
      · simp [State.complete, At, hch]
    · refine (h.place q).frame fun d hd => ?_
      have hdc : d ≠ c := fun hdc => hqp (hi.excl q p c (hdc ▸ hi.uses q d hd) hc)
      refine ⟨if_neg hdc, fun hdq => ?_⟩
      rw [hqueue] at hdq
      exact (List.mem_cons.1 hdq).resolve_left hdc
  · have hdc : d ≠ c := fun hdc => hcrest (hdc ▸ hd)
    obtain ⟨hrd, q, ho, hwq⟩ := h.queue d (by rw [hqueue]; exact List.mem_cons_of_mem c hd)
    exact ⟨by simpa [State.complete, hdc] using hrd, q, ho, by simpa [State.complete] using hwq⟩

lemma bwrite (h : Fresh s) (hi : Inv s) {p : P} {c : BufId} {k : Option (BufId × ℕ)} (hc : c ∈ s.own p)
    (hp : (s.pc p).Steady) : Fresh (s.bwrite p c k) := by
  unfold State.bwrite
  split_ifs
  · exact h.halt _
  · have hq := h.notMem_queue hi hc (steady_waits hp)
    have h' := h.poke hi (b := { s.buf c with dirty := true, changed := false }) hc hp ⟨rfl, rfl, rfl, rfl⟩
      (Or.inr ⟨rfl, rfl, rfl, rfl⟩)
    unfold State.iderw
    split_ifs
    · exact h'.halt _
    · exact h'.halt _
    · exact h'.halt _
    · refine h'.enqueue hc ?_ (steady_waits hp) hq rfl ?_ fun d hd => absurd hd (steady_unread hp d)
      · simp [State.setBuf, Buf.ready]
      · exact ⟨by simp [State.setBuf], fun _ => by simp⟩

/-- `bread` of a buffer that is not valid. -/
lemma fill (h : Fresh s) (hi : Inv s) {p : P} {c : BufId} {dev sector : ℕ} {k : Use} (hc : c ∈ s.own p)
    (hp : s.pc p = .test c dev sector k) (hv : (s.buf c).valid = false) : Fresh (s.iderw p c (.fill c dev sector k)) := by
  have hpl := h.place p
  rw [hp] at hpl
  have hd : (s.buf c).dirty = false := by
    by_contra hd
    have := h.dirty c (by simpa using hd)
    rw [hv] at this
    cases this
  have hw : (s.pc p).waits = none := by rw [hp]; rfl
  unfold State.iderw
  split_ifs
  · exact h.halt _
  · exact h.halt _
  · exact h.halt _
  · refine h.enqueue hc (by simp [Buf.ready, hv]) hw (h.notMem_queue hi hc hw) rfl ?_ fun d hu => ?_
    · exact ⟨hpl.1, hpl.2, hd, fun _ => by simp⟩
    · rw [hp] at hu
      exact Or.inr hu

/-- `bread` returns. -/
lemma returns (h : Fresh s) {p : P} {c : BufId} {k : Use} (hv : (s.buf c).valid = true)
    (hu : ∀ d, (s.pc p).Unread d → d = c) (hw : ∀ d, (s.pc p).waits = some d → (s.buf d).ready = true) :
    Fresh (s.returns p c k) := by
  cases k with
  | caller =>
    refine h.goto trivial (fun d hd => ?_) fun d hd => Or.inl (hw d hd)
    rw [hu d hd]
    exact Or.inl hv
  | log_write b i =>
    refine h.goto trivial (fun d hd => ?_) fun d hd => Or.inl (hw d hd)
    rw [hu d hd]
    exact Or.inl hv

lemma mark (h : Fresh s) (hi : Inv s) {p : P} {b : BufId} {i : ℕ} (hb : b ∈ s.own p) (hp : (s.pc p).Steady) :
    Fresh (s.mark p b i) := by
  have h' := h.poke hi (b := { s.buf b with dirty := true, changed := false }) hb hp ⟨rfl, rfl, rfl, rfl⟩
    (Or.inr ⟨rfl, rfl, rfl, rfl⟩)
  have hg := h'.goto (p := p) (x := .idle) trivial (fun d hd => absurd hd (steady_unread hp d)) fun d hd => by
    have hw : (s.pc p).waits = some d := hd
    rw [steady_waits hp] at hw
    cases hw
  exact hg.congr rfl rfl rfl rfl rfl rfl rfl

lemma bget (h : Fresh s) (hi : Inv s) {p : P} {dev sector : ℕ} {k : Use} (hp : s.pc p = .bget dev sector k) :
    Fresh (s.bget p dev sector k) := by
  unfold State.bget
  split
  · rename_i c hc
    have hcd := hi.cached_some hc
    split_ifs with hb
    · refine h.goto ?_ (fun d hd => ?_) fun d hd => ?_
      · have := h.place p
        rwa [hp] at this
      · rw [hp] at hd
        cases hd
      · rw [hp] at hd
        cases hd
    · exact h.take hi hp (by simpa using hb) hcd rfl rfl (Or.inl rfl)
  · rename_i hnone
    split
    · rename_i c hc
      obtain ⟨hb, hd⟩ := hi.spare_some hc
      exact h.take hi hp hb ⟨rfl, rfl⟩ rfl rfl (Or.inr ⟨hd, rfl, rfl, hi.cached_none hnone⟩)
    · exact h.halt _

lemma run (h : Fresh s) (hi : Inv s) {p : P} (hrun : s.run p = some s') : Fresh s' := by
  have huses := hi.uses p
  have hpl := h.place p
  unfold State.run at hrun
  split at hrun <;> rename_i hpc <;> rw [hpc] at huses hpl <;> simp only [Pc.bufs] at huses
  · cases hrun
  · cases hrun
  · cases hrun
    exact h.bget hi hpc
  · split_ifs at hrun with hv <;> cases hrun
    · exact h.returns hv (by simp [hpc, Pc.Unread, eq_comm]) (by simp [hpc, Pc.waits])
    · exact h.fill hi (huses _ (by simp)) hpc (by simpa using hv)
  · split_ifs at hrun with hr
    cases hrun
    exact h.returns (by simp_all [Buf.ready]) (by simp [hpc, Pc.Unread, eq_comm]) (by simp [hpc, Pc.waits, hr])
  · split_ifs at hrun with hr
    cases hrun
    exact h.goto trivial (by simp [hpc, Pc.Unread]) (by simp [hpc, Pc.waits, hr])
  · split_ifs at hrun with hr
    cases hrun
    exact h.goto hpl.1 (by simp [hpc, Pc.Unread]) (by simp [hpc, Pc.waits, hr])
  · rename_i c b i
    cases hrun
    have hc := huses c (by simp)
    have hst : (s.pc p).Steady := by simp [hpc, Pc.Steady]
    have h' := h.poke hi (b := { s.buf c with data := (s.buf b).data, changed := true }) (l := s.last) hc hst ⟨rfl, rfl, rfl, rfl⟩
      (Or.inl ⟨rfl, rfl, rfl⟩)
    refine Fresh.bwrite (s := s.setBuf c _) h' (Inv.poke hi ?_) hc hst
    exact ⟨rfl, rfl, rfl⟩
  · rename_i c b i
    cases hrun
    exact h.brelse hi (huses c (by simp)) (by simp [hpc, Pc.waits]) (by simp [hpc, Pc.Unread]) hpl trivial
  · rename_i b i
    cases hrun
    exact h.mark hi (huses b (by simp)) (by simp [hpc, Pc.Steady])

end Fresh

end Bcache

end Os132

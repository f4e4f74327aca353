import Os132.Memory.Space

/-!
# What `sbrk` does to the address space

`Exact`: the pages below `PGROUNDUP(sz)` are mapped, no others. A growth that fails takes back what it
mapped; a growth that gets every page and every page table maps exactly the new pages; a shrink unmaps
exactly the pages above the new size. The defects are the ignored result of `mappages`, a new size of 0
that reads as a failure, and a new size below 0 that reads as a success.
-/

namespace Os132

namespace Memory

variable {s s' : Space} {k : Kalloc} {i j p : ℕ}

/-- The pages of the process are those below its size, each with a page of memory of its own. -/
structure Space.Exact (s : Space) : Prop where
  size : s.sz < KERNBASE
  mapped : ∀ i, i < PAGES → ((s.entry i).isSome ↔ i * PGSIZE < PGROUNDUP s.sz)
  frame : ∀ i, i < PAGES → s.entry i ≠ some 0
  apart : ∀ i j f, i < PAGES → j < PAGES → s.entry i = some f → s.entry j = some f → i = j

/-- `kalloc` gives pages that are free: they differ, and the process does not have them. -/
def Kalloc.Fresh (k : Kalloc) (s : Space) : Prop :=
  ∀ i < PAGES, ∀ f ∈ k.page i, f ≠ 0 ∧ ∀ j < PAGES, s.entry j ≠ some f ∧ (k.page j = some f → j = i)

instance : Decidable (k.Fresh s) := by
  unfold Kalloc.Fresh
  infer_instance

lemma PGROUNDUP_eq {n : ℕ} (h : n ≤ KERNBASE) : PGROUNDUP n = (n + 4095) / 4096 * 4096 := by
  unfold PGROUNDUP PGSIZE KERNBASE at *
  rw [Nat.mod_eq_of_lt (by omega)]
  omega

/-! ### Entries -/

lemma entry_setEntry {v : Option Frame} (h : (s.pgdir (i / NPTENTRIES)).isSome) :
    (s.setEntry i v).entry j = if j = i then v else s.entry j := by
  obtain ⟨t, ht⟩ := Option.isSome_iff_exists.1 h
  simp only [Space.entry, Space.setEntry]
  unfold NPTENTRIES at *
  by_cases hd : j / 1024 = i / 1024
  · rw [if_pos hd, hd, ht]
    simp only [Option.map_some, Option.bind_some]
    split_ifs <;> first | rfl | omega
  · rw [if_neg hd, if_neg (by rintro rfl; exact hd rfl)]

lemma pgdir_setEntry {v : Option Frame} {d : ℕ} : ((s.setEntry i v).pgdir d).isSome = (s.pgdir d).isSome := by
  simp only [Space.setEntry]
  split_ifs <;> simp

lemma entry_none (h : s.pgdir (i / NPTENTRIES) = none) : s.entry i = none := by
  simp [Space.entry, h]

lemma entry_walkpgdir {t : Bool} : (s.walkpgdir t i).1.entry j = s.entry j := by
  unfold Space.walkpgdir
  cases h : s.pgdir (i / NPTENTRIES) with
  | some _ => rfl
  | none =>
    dsimp only
    split_ifs
    · simp only [Space.entry]
      by_cases hd : j / NPTENTRIES = i / NPTENTRIES
      · simp [hd, h]
      · simp [hd]
    · rfl

/-- `mappages` of a page that is not mapped: it is mapped if there is a page table or `kalloc` gives one. -/
lemma mappages_spec (t : Bool) (mem : Frame) (h : s.entry i = none) : ∃ s' r, s.mappages t i mem = some (s', r) ∧
    s'.sz = s.sz ∧ s'.content = s.content ∧ (∀ d, (s.pgdir d).isSome → (s'.pgdir d).isSome) ∧
    ∀ j, s'.entry j = if j = i ∧ ((s.pgdir (i / NPTENTRIES)).isSome ∨ t) then some mem else s.entry j := by
  have hwalk (j : ℕ) : (s.walkpgdir t i).1.entry j = s.entry j := entry_walkpgdir
  unfold Space.mappages
  cases hp : s.pgdir (i / NPTENTRIES) with
  | some pt =>
    have hw : s.walkpgdir t i = (s, true) := by simp [Space.walkpgdir, hp]
    have hsome : (s.pgdir (i / NPTENTRIES)).isSome := by simp [hp]
    refine ⟨s.setEntry i (some mem), 0, by simp [hw, h], rfl, rfl, fun d hd => by rwa [pgdir_setEntry], fun j => ?_⟩
    rw [entry_setEntry hsome]
    simp
  | none =>
    cases t with
    | false => exact ⟨s, -1, by simp [Space.walkpgdir, hp], rfl, rfl, fun _ hd => hd, fun j => by simp⟩
    | true =>
      set s₁ := (s.walkpgdir true i).1 with hs₁
      have hw : s.walkpgdir true i = (s₁, true) := by simp [hs₁, Space.walkpgdir, hp]
      have hd₁ (d : ℕ) : s₁.pgdir d = if d = i / NPTENTRIES then some fun _ => none else s.pgdir d := by
        simp [hs₁, Space.walkpgdir, hp]
      have hsome : (s₁.pgdir (i / NPTENTRIES)).isSome := by simp [hd₁]
      refine ⟨s₁.setEntry i (some mem), 0, by simp [hw, hwalk, h], ?_, ?_, fun d hd => ?_, fun j => ?_⟩
      · simp [hs₁, Space.walkpgdir, hp, Space.setEntry]
      · simp [hs₁, Space.walkpgdir, hp, Space.setEntry]
      · rw [pgdir_setEntry, hd₁]
        split_ifs
        · rfl
        · exact hd
      · rw [entry_setEntry hsome, hwalk]
        simp

/-! ### deallocuvm -/

/-- What `deallocuvm` leaves from page `p` on: nothing below `oldsz`. -/
structure Unmapped (s : Space) (oldsz p : ℕ) (s' : Space) : Prop where
  sz : s'.sz = s.sz
  entry : ∀ j, s'.entry j = if p ≤ j ∧ j * PGSIZE < oldsz then none else s.entry j
  content : ∀ f, (∀ j, p ≤ j → j * PGSIZE < oldsz → s.entry j ≠ some f) → s'.content f = s.content f

lemma page_mul : page (p * PGSIZE) = p := Nat.mul_div_cancel p (by decide)

lemma add_page {oldsz : ℕ} (h : p * PGSIZE < oldsz) (hold : oldsz ≤ KERNBASE) :
    (p * PGSIZE + PGSIZE) % 2 ^ 32 = (p + 1) * PGSIZE ∧
      (p * PGSIZE + (NPTENTRIES - 1) * PGSIZE + PGSIZE) % 2 ^ 32 = (p + NPTENTRIES) * PGSIZE := by
  unfold PGSIZE KERNBASE NPTENTRIES at *
  omega

/-- The skip over a missing page table passes no page of the next one if it starts at a table's first page. -/
lemma deallocLoop_spec {oldsz fuel : ℕ} (hold : oldsz ≤ KERNBASE) (hfuel : oldsz ≤ (p + fuel) * PGSIZE)
    (hstart : p % NPTENTRIES = 0 ∨ (s.pgdir (p / NPTENTRIES)).isSome ∨ oldsz ≤ p * PGSIZE)
    (hframe : ∀ j, j * PGSIZE < oldsz → s.entry j ≠ some 0) :
    ∃ s', deallocLoop oldsz (fuel + 1) (p * PGSIZE) s = some s' ∧ Unmapped s oldsz p s' := by
  induction fuel generalizing p s with
  | zero =>
    rw [Nat.add_zero] at hfuel
    refine ⟨s, ?_, rfl, fun j => ?_, fun _ _ => rfl⟩
    · rw [deallocLoop, if_neg (by omega)]
    · rw [if_neg]
      rintro ⟨hj, hlt⟩
      have := Nat.mul_le_mul_right PGSIZE hj
      omega
  | succ fuel ih =>
    rw [deallocLoop]
    by_cases hlt : p * PGSIZE < oldsz
    · rw [if_pos hlt, page_mul]
      obtain ⟨hnext, hskip⟩ := add_page hlt hold
      cases hd : s.pgdir (p / NPTENTRIES) with
      | none =>
        have hp0 : p % NPTENTRIES = 0 := by
          rcases hstart with h | h | h
          · exact h
          · simp [hd] at h
          · omega
        obtain ⟨s', h, hs'⟩ := ih (p := p + NPTENTRIES) (s := s)
          (hfuel.trans (Nat.mul_le_mul_right _ (by unfold NPTENTRIES; omega))) (Or.inl (by simpa using hp0)) hframe
        refine ⟨s', by rw [← h, ← hskip], hs'.sz, fun j => ?_, fun f hf => hs'.content f fun j hj => hf j (by omega)⟩
        rw [hs'.entry]
        by_cases hj : p ≤ j ∧ j < p + NPTENTRIES
        · have hslot : j / NPTENTRIES = p / NPTENTRIES := by
            unfold NPTENTRIES at *
            omega
          rw [entry_none (hslot ▸ hd), ite_self, ite_self]
        · exact if_congr (by omega) rfl rfl
      | some t =>
        have hslot {t' : Space} (ht : ∀ d, (t'.pgdir d).isSome = (s.pgdir d).isSome) :
            (p + 1) % NPTENTRIES = 0 ∨ (t'.pgdir ((p + 1) / NPTENTRIES)).isSome ∨ oldsz ≤ (p + 1) * PGSIZE := by
          by_cases h0 : (p + 1) % NPTENTRIES = 0
          · exact Or.inl h0
          · have heq : (p + 1) / NPTENTRIES = p / NPTENTRIES := by
              unfold NPTENTRIES at *
              omega
            exact Or.inr (Or.inl (by rw [ht, heq, hd]; rfl))
        have hpos : p + 1 + fuel = p + (fuel + 1) := by omega
        have hentry : s.entry p = t (p % NPTENTRIES) := by simp [Space.entry, hd]
        have hrange (j : ℕ) : (p ≤ j ∧ j * PGSIZE < oldsz) ↔ j = p ∨ p + 1 ≤ j ∧ j * PGSIZE < oldsz := by
          constructor
          · rintro ⟨h1, h2⟩
            omega
          · rintro (rfl | h)
            · exact ⟨le_rfl, hlt⟩
            · exact ⟨by omega, h.2⟩
        cases hpa : t (p % NPTENTRIES) with
        | none =>
          obtain ⟨s', h, hs'⟩ := ih (p := p + 1) (s := s) (by rw [hpos]; exact hfuel) (hslot fun _ => rfl) hframe
          refine ⟨s', by dsimp only; rw [hpa, ← h, ← hnext], hs'.sz, fun j => ?_,
            fun f hf => hs'.content f fun j hj => hf j (by omega)⟩
          rw [hs'.entry, if_congr (hrange j) rfl rfl]
          by_cases hj : j = p
          · rw [if_pos (Or.inl hj), hj, hentry, hpa, ite_self]
          · exact if_congr (by simp [hj]) rfl rfl
        | some pa =>
          have hpa0 : pa ≠ 0 := fun h0 => hframe p hlt (by rw [hentry, hpa, h0])
          set s₁ : Space := { s with content := fun f => if f = pa then fun _ => 1 else s.content f }
          have hsome : (s₁.pgdir (p / NPTENTRIES)).isSome := by simp [s₁, hd]
          have he₁ (j : ℕ) : (s₁.setEntry p none).entry j = if j = p then none else s.entry j := entry_setEntry hsome
          obtain ⟨s', h, hs'⟩ := ih (p := p + 1) (s := s₁.setEntry p none) (by rw [hpos]; exact hfuel)
            (hslot fun d => pgdir_setEntry) fun j hj => by
              rw [he₁]
              split_ifs
              · simp
              · exact hframe j hj
          refine ⟨s', by dsimp only; rw [hpa]; dsimp only; rw [if_neg hpa0, ← h, ← hnext], hs'.sz, fun j => ?_, fun f hf => ?_⟩
          · rw [hs'.entry, he₁, if_congr (hrange j) rfl rfl]
            by_cases hj : j = p
            · simp [hj]
            · simp [hj]
          · have hne : f ≠ pa := by
              rintro rfl
              exact hf p le_rfl hlt (by rw [hentry, hpa])
            have hkeep : s'.content f = s₁.content f := hs'.content f fun j hj hjo => by
              rw [he₁, if_neg (by omega)]
              exact hf j (by omega) hjo
            rw [hkeep]
            exact if_neg hne
    · refine ⟨s, if_neg hlt, rfl, fun j => ?_, fun _ _ => rfl⟩
      rw [if_neg]
      rintro ⟨hj, hlt'⟩
      have := Nat.mul_le_mul_right PGSIZE hj
      omega

/-! ### allocuvm -/

/-- What `allocuvm` has done when it comes to page `p`, for a process of `s₀`. -/
structure Growing (k : Kalloc) (s₀ : Space) (p : ℕ) (s : Space) : Prop where
  sz : s.sz = s₀.sz
  old : ∀ j, j * PGSIZE < PGROUNDUP s₀.sz → s.entry j = s₀.entry j
  new : ∀ j, PGROUNDUP s₀.sz ≤ j * PGSIZE → j < p → s.entry j = none ∨ s.entry j = k.page j
  ahead : ∀ j, PGROUNDUP s₀.sz ≤ j * PGSIZE → p ≤ j → j < PAGES → s.entry j = none
  content : ∀ f, (∀ j, j < PAGES → k.page j ≠ some f) → s.content f = s₀.content f
  tables : ∀ d, (s₀.pgdir d).isSome → (s.pgdir d).isSome

/-- All new pages before `p` are mapped. -/
def Growing.Full (s₀ : Space) (p : ℕ) (s : Space) : Prop :=
  ∀ j, PGROUNDUP s₀.sz ≤ j * PGSIZE → j < p → (s.entry j).isSome

/-- `kalloc` gives every page table that a growth to `newsz` needs. -/
def Kalloc.Tables (k : Kalloc) (s₀ : Space) (newsz : ℕ) : Prop :=
  ∀ i, PGROUNDUP s₀.sz ≤ i * PGSIZE → i * PGSIZE < newsz → i % NPTENTRIES = 0 → s₀.pgdir (i / NPTENTRIES) = none →
    k.table i = true

/-- `kalloc` gives every page that a growth to `newsz` needs. -/
def Kalloc.Pages (k : Kalloc) (s₀ : Space) (newsz : ℕ) : Prop :=
  ∀ i, PGROUNDUP s₀.sz ≤ i * PGSIZE → i * PGSIZE < newsz → (k.page i).isSome

/-- The space is as it was, for the process. -/
structure Kept (s s' : Space) : Prop where
  sz : s'.sz = s.sz
  entry : ∀ i, i < PAGES → s'.entry i = s.entry i
  content : ∀ i f, i < PAGES → s.entry i = some f → s'.content f = s.content f

variable {s₀ : Space} {newsz : ℕ}

lemma lt_of_mul_lt {n : ℕ} (h : i * PGSIZE < n) (hn : n ≤ KERNBASE) : i < PAGES := by
  unfold PAGES KERNBASE PGSIZE at *
  omega

lemma round_le {n : ℕ} (h : n ≤ KERNBASE) : PGROUNDUP n ≤ KERNBASE := by
  rw [PGROUNDUP_eq h]
  unfold KERNBASE at *
  omega

lemma fuel_enough {n : ℕ} (h : n ≤ KERNBASE) (p : ℕ) : n ≤ (p + PAGES) * PGSIZE :=
  h.trans (Nat.mul_le_mul_right PGSIZE (Nat.le_add_left PAGES p))

section alloc

variable (hex : s₀.Exact) (hfresh : k.Fresh s₀) (hnew : newsz < KERNBASE)
include hex hnew

lemma Growing.step (h : Growing k s₀ p s) (hp : PGROUNDUP s₀.sz ≤ p * PGSIZE) (hlt : p * PGSIZE < newsz) {mem : Frame}
    (hmem : k.page p = some mem) : ∃ s' r,
    ({ s with content := fun f => if f = mem then fun _ => 0 else s.content f } : Space).mappages (k.table p) p mem =
      some (s', r) ∧ Growing k s₀ (p + 1) s' ∧
      (k.Tables s₀ newsz → Growing.Full s₀ p s → Growing.Full s₀ (p + 1) s') := by
  have hpages := lt_of_mul_lt hlt hnew.le
  have hnone : s.entry p = none := h.ahead p hp le_rfl hpages
  set s₁ : Space := { s with content := fun f => if f = mem then fun _ => 0 else s.content f }
  obtain ⟨s', r, hmap, hsz, hcont, htab, hent⟩ := mappages_spec (s := s₁) (k.table p) mem hnone
  refine ⟨s', r, hmap, ⟨hsz.trans h.sz, fun j hj => ?_, fun j hj hjp => ?_, fun j hj hjp hjn => ?_, fun f hf => ?_,
    fun d hd => htab d (h.tables d hd)⟩, fun htables hfull j hj hjp => ?_⟩
  · rw [hent, if_neg]
    · exact h.old j hj
    · rintro ⟨rfl, -⟩
      omega
  · rw [hent]
    split_ifs with hc
    · exact Or.inr (by rw [hc.1, hmem])
    · by_cases hjp' : j = p
      · exact Or.inl (hjp' ▸ hnone)
      · exact h.new j hj (by omega)
  · rw [hent, if_neg (by rintro ⟨rfl, -⟩; omega)]
    exact h.ahead j hj (by omega) hjn
  · rw [hcont]
    have hne : f ≠ mem := by
      rintro rfl
      exact hf p hpages hmem
    exact (if_neg hne).trans (h.content f hf)
  · rw [hent]
    by_cases hjp' : j = p
    · subst hjp'
      rw [if_pos]
      · rfl
      refine ⟨rfl, ?_⟩
      by_contra hno
      rw [not_or, Bool.not_eq_true, Option.isSome_eq_false_iff, Option.isNone_iff_eq_none] at hno
      have hno₀ : s₀.pgdir (j / NPTENTRIES) = none := by
        by_contra hsome
        have := h.tables _ (Option.isSome_iff_ne_none.2 hsome)
        rw [show s.pgdir (j / NPTENTRIES) = none from hno.1] at this
        cases this
      by_cases h0 : j % NPTENTRIES = 0
      · exact hno.2 (htables j hj hlt h0 hno₀)
      -- the page before it is mapped, so the page table is there
      · have hprev : (s.entry (j - 1)).isSome := by
          by_cases hold : (j - 1) * PGSIZE < PGROUNDUP s₀.sz
          · rw [h.old _ hold]
            exact (hex.mapped _ (by omega)).2 hold
          · refine hfull (j - 1) (by omega) ?_
            have : 0 < j := by
              rcases Nat.eq_zero_or_pos j with rfl | hpos
              · exact absurd rfl h0
              · exact hpos
            omega
        have hslot : (j - 1) / NPTENTRIES = j / NPTENTRIES := by
          unfold NPTENTRIES at *
          omega
        rw [entry_none (hslot ▸ hno.1)] at hprev
        cases hprev
    · rw [if_neg (fun hc => hjp' hc.1)]
      exact hfull j hj (by omega)

include hfresh

/-- Taking back the growth leaves what was there before. -/
lemma Growing.undo (h : Growing k s₀ p s) (hlt : p * PGSIZE < newsz) (hsz : s₀.sz < newsz) :
    ∃ s', deallocuvm s newsz s₀.sz = some (s', s₀.sz) ∧ Kept s₀ s' := by
  have hround := PGROUNDUP_eq hex.size.le
  set q := (s₀.sz + 4095) / 4096 with hq
  have hqp : PGROUNDUP s₀.sz = q * PGSIZE := hround
  have hstart : q % NPTENTRIES = 0 ∨ (s.pgdir (q / NPTENTRIES)).isSome ∨ newsz ≤ q * PGSIZE := by
    by_cases h0 : q % NPTENTRIES = 0
    · exact Or.inl h0
    · refine Or.inr (Or.inl ?_)
      have hlast : (q - 1) * PGSIZE < PGROUNDUP s₀.sz := by
        have hpos : 0 < q := by
          by_contra hq0
          rw [show q = 0 by omega] at h0
          exact h0 rfl
        rw [hqp]
        exact Nat.mul_lt_mul_of_pos_right (by omega) (by decide)
      have hin := lt_of_mul_lt hlast (round_le hex.size.le)
      have hmapped : (s.entry (q - 1)).isSome := by
        rw [h.old _ hlast]
        exact (hex.mapped _ hin).2 hlast
      have hslot : (q - 1) / NPTENTRIES = q / NPTENTRIES := by
        unfold NPTENTRIES at *
        omega
      by_contra hno
      rw [Bool.not_eq_true, Option.isSome_eq_false_iff, Option.isNone_iff_eq_none] at hno
      rw [entry_none (hslot ▸ hno)] at hmapped
      cases hmapped
  obtain ⟨s', hd, hs'⟩ := deallocLoop_spec (s := s) hnew.le (fuel_enough hnew.le q) hstart fun j hj => by
    have hjn := lt_of_mul_lt hj hnew.le
    by_cases hold : j * PGSIZE < PGROUNDUP s₀.sz
    · rw [h.old j hold]
      exact hex.frame j hjn
    · by_cases hjp : j < p
      · rcases h.new j (by omega) hjp with hn | hn
        · simp [hn]
        · rw [hn]
          exact fun h0 => (hfresh j hjn 0 h0).1 rfl
      · simp [h.ahead j (by omega) (by omega) hjn]
  refine ⟨s', ?_, hs'.sz.trans h.sz, fun i hi => ?_, fun i f hi hf => ?_⟩
  · rw [deallocuvm, if_neg (by omega), hqp, hd]
    rfl
  · rw [hs'.entry]
    by_cases hold : i * PGSIZE < PGROUNDUP s₀.sz
    · rw [if_neg (fun hc => by have := Nat.mul_le_mul_right PGSIZE hc.1; omega), h.old i hold]
    · have hnone : s₀.entry i = none := by
        rw [← Option.not_isSome_iff_eq_none, hex.mapped i hi]
        exact hold
      rw [hnone]
      split_ifs with hc
      · rfl
      · refine h.ahead i (by omega) ?_ hi
        by_contra hip
        refine hc ⟨?_, ?_⟩
        · rw [hqp] at hold
          exact Nat.le_of_mul_le_mul_right (by omega) (show 0 < PGSIZE by decide)
        · have := Nat.mul_le_mul_right PGSIZE (show i ≤ p by omega)
          omega
  · have hnotnew : ∀ j, j < PAGES → k.page j ≠ some f := fun j hj hjf =>
      ((hfresh j hj f hjf).2 i hi).1 hf
    rw [hs'.content f fun j hj hjn => ?_, h.content f hnotnew]
    have hjn' := lt_of_mul_lt hjn hnew.le
    have hge : PGROUNDUP s₀.sz ≤ j * PGSIZE := by
      rw [hqp]
      exact Nat.mul_le_mul_right PGSIZE hj
    by_cases hjp : j < p
    · rcases h.new j hge hjp with hn | hn
      · simp [hn]
      · rw [hn]
        exact hnotnew j hjn'
    · simp [h.ahead j hge (by omega) hjn']

/-- A growth ends with all pages given, or takes everything back. -/
lemma allocLoop_spec {fuel : ℕ} (hsz : s₀.sz < newsz) (h : Growing k s₀ p s) (hp : PGROUNDUP s₀.sz ≤ p * PGSIZE)
    (hlast : p * PGSIZE = PGROUNDUP s₀.sz ∨ (p - 1) * PGSIZE < newsz) (hfuel : newsz ≤ (p + fuel) * PGSIZE)
    (hfull : k.Tables s₀ newsz → Growing.Full s₀ p s) (hgiven : ∀ i, PGROUNDUP s₀.sz ≤ i * PGSIZE → i < p → (k.page i).isSome) :
    (∃ s' p', allocLoop k s₀.sz newsz (fuel + 1) (p * PGSIZE) s = some (s', newsz) ∧ Growing k s₀ p' s' ∧ newsz ≤ p' * PGSIZE ∧
      PGROUNDUP s₀.sz ≤ p' * PGSIZE ∧ (p' * PGSIZE = PGROUNDUP s₀.sz ∨ (p' - 1) * PGSIZE < newsz) ∧ k.Pages s₀ newsz ∧
      (k.Tables s₀ newsz → Growing.Full s₀ p' s')) ∨
    ∃ s', allocLoop k s₀.sz newsz (fuel + 1) (p * PGSIZE) s = some (s', 0) ∧ Kept s₀ s' := by
  have hdone (hge : newsz ≤ p * PGSIZE) (fuel : ℕ) : ∃ s' p', allocLoop k s₀.sz newsz (fuel + 1) (p * PGSIZE) s = some (s', newsz) ∧
      Growing k s₀ p' s' ∧ newsz ≤ p' * PGSIZE ∧ PGROUNDUP s₀.sz ≤ p' * PGSIZE ∧
      (p' * PGSIZE = PGROUNDUP s₀.sz ∨ (p' - 1) * PGSIZE < newsz) ∧ k.Pages s₀ newsz ∧
      (k.Tables s₀ newsz → Growing.Full s₀ p' s') := by
    refine ⟨s, p, if_neg (by omega), h, hge, hp, hlast, fun i hi hin => hgiven i hi ?_, hfull⟩
    by_contra hip
    have := Nat.mul_le_mul_right PGSIZE (show p ≤ i by omega)
    omega
  induction fuel generalizing p s with
  | zero => exact Or.inl (hdone (by simpa using hfuel) 0)
  | succ fuel ih =>
    by_cases hlt : p * PGSIZE < newsz
    · have hnext := (add_page hlt hnew.le).1
      rw [allocLoop, if_pos hlt, page_mul]
      cases hmem : k.page p with
      | none =>
        obtain ⟨s', hd, hk⟩ := h.undo hex hfresh hnew hlt hsz
        exact Or.inr ⟨s', by simp [hd], hk⟩
      | some mem =>
        obtain ⟨s', r, hmap, hs', hf'⟩ := h.step hex hnew hp hlt hmem
        dsimp only
        rw [hmap, Option.bind_some, hnext]
        have hle := Nat.mul_le_mul_right PGSIZE (show p ≤ p + 1 by omega)
        have hgiven' : ∀ i, PGROUNDUP s₀.sz ≤ i * PGSIZE → i < p + 1 → (k.page i).isSome := fun i hi hip => by
          by_cases hip' : i = p
          · rw [hip', hmem]
            rfl
          · exact hgiven i hi (by omega)
        refine ih hs' (hp.trans hle) (Or.inr (by simpa using hlt)) (by rwa [show p + 1 + fuel = p + (fuel + 1) by omega])
          (fun ht => hf' ht (hfull ht)) hgiven' fun hge fuel => ?_
        refine ⟨s', p + 1, if_neg (by omega), hs', hge, hp.trans hle, Or.inr (by simpa using hlt), fun i hi hin => hgiven' i hi ?_,
          fun ht => hf' ht (hfull ht)⟩
        by_contra hip
        have := Nat.mul_le_mul_right PGSIZE (show p + 1 ≤ i by omega)
        omega
    · exact Or.inl (hdone (by omega) (fuel + 1))

end alloc

/-! ### growproc and sys_sbrk -/

/-- The call did what it says: on success the size changed by the argument and the pages of both sizes stay,
on failure nothing changed. -/
structure Good (l : Sbrk) (s s' : Space) (v : ℤ) : Prop where
  exact : s'.Exact
  success : v ≠ -1 → v = s.sz ∧ ∃ n, l.arg = some n ∧ (s'.sz : ℤ) = s.sz + n.toInt
  stays : ∀ i f, i * PGSIZE < PGROUNDUP s'.sz → s.entry i = some f → i < PAGES → s'.entry i = some f ∧ s'.content f = s.content f
  failure : v = -1 → Kept s s'

/-- A growth gets all its page tables unless it fails for want of a page, and a shrink leaves a byte. -/
def Sbrk.Sound (l : Sbrk) (s : Space) : Prop :=
  ∀ n, l.arg = some n →
    (0 < n.toInt → addInt s.sz n.toInt < KERNBASE → l.kalloc.Pages s (addInt s.sz n.toInt) →
      l.kalloc.Tables s (addInt s.sz n.toInt)) ∧
    (n.toInt < 0 → s.sz = 0 ∨ -n.toInt < s.sz)

lemma Kept.refl (s : Space) : Kept s s := ⟨rfl, fun _ _ => rfl, fun _ _ _ _ => rfl⟩

lemma Kept.exact (h : Kept s s') (hex : s.Exact) : s'.Exact := by
  refine ⟨h.sz ▸ hex.size, fun i hi => ?_, fun i hi => ?_, fun i j f hi hj hif hjf => ?_⟩
  · rw [h.entry i hi, h.sz]
    exact hex.mapped i hi
  · rw [h.entry i hi]
    exact hex.frame i hi
  · rw [h.entry i hi] at hif
    rw [h.entry j hj] at hjf
    exact hex.apart i j f hi hj hif hjf

lemma Kept.good {l : Sbrk} (h : Kept s s') (hex : s.Exact) : Good l s s' (-1) :=
  ⟨h.exact hex, fun hne => absurd rfl hne, fun i f _ hf hi => ⟨(h.entry i hi).trans hf, h.content i f hi hf⟩, fun _ => h⟩

/-- The space of a process after a growth to `newsz`. -/
lemma Growing.exact (hex : s₀.Exact) (hfresh : k.Fresh s₀) (hnew : newsz < KERNBASE) (hsz : s₀.sz < newsz)
    (h : Growing k s₀ p s) (hge : newsz ≤ p * PGSIZE) (hlast : p * PGSIZE = PGROUNDUP s₀.sz ∨ (p - 1) * PGSIZE < newsz)
    (hfull : Growing.Full s₀ p s) : ({ s with sz := newsz } : Space).Exact := by
  have hold := PGROUNDUP_eq hex.size.le
  have hnewr := PGROUNDUP_eq hnew.le
  have hval : ∀ i f, i < PAGES → s.entry i = some f → s₀.entry i = some f ∨ k.page i = some f := fun i f hi hf => by
    by_cases ho : i * PGSIZE < PGROUNDUP s₀.sz
    · exact Or.inl (by rwa [← h.old i ho])
    · by_cases hip : i < p
      · rcases h.new i (by omega) hip with hn | hn
        · simp [hn] at hf
        · exact Or.inr (by rwa [← hn])
      · simp [h.ahead i (by omega) (by omega) hi] at hf
  refine ⟨hnew, fun i hi => ?_, fun i hi h0 => ?_, fun i j f hi hj hif hjf => ?_⟩
  · change (s.entry i).isSome ↔ i * PGSIZE < PGROUNDUP newsz
    by_cases ho : i * PGSIZE < PGROUNDUP s₀.sz
    · rw [h.old i ho, hex.mapped i hi]
      omega
    · by_cases hip : i < p
      · refine iff_of_true (hfull i (by omega) hip) ?_
        unfold PGSIZE at *
        omega
      · rw [h.ahead i (by omega) (by omega) hi]
        refine iff_of_false (by simp) ?_
        unfold PGSIZE at *
        omega
  · rcases hval i 0 hi h0 with hf | hf
    · exact hex.frame i hi hf
    · exact (hfresh i hi 0 hf).1 rfl
  · rcases hval i f hi hif with hf | hf
    · rcases hval j f hj hjf with hf' | hf'
      · exact hex.apart i j f hi hj hf hf'
      · exact absurd hf ((hfresh j hj f hf').2 i hi).1
    · rcases hval j f hj hjf with hf' | hf'
      · exact absurd hf' ((hfresh i hi f hf).2 j hj).1
      · exact ((hfresh j hj f hf').2 i hi).2 hf

/-- `growproc` of a positive count. -/
lemma grow_good {l : Sbrk} {n : BitVec 32} (hl : l.arg = some n) (hex : s.Exact) (hfresh : l.kalloc.Fresh s) (hpos : 0 < n.toInt)
    (hs : l.Sound s) : ∃ s' v, sys_sbrk l s = some (s', v) ∧ Good l s s' v := by
  have hsize := hex.size
  have hlt : n.toInt < 2 ^ 31 := BitVec.toInt_lt
  have hadd : addInt s.sz n.toInt = s.sz + n.toInt.toNat := by
    unfold addInt KERNBASE at *
    omega
  have hgt : s.sz < addInt s.sz n.toInt := by omega
  have hround := PGROUNDUP_eq hsize.le
  simp only [sys_sbrk, hl, growproc, if_pos hpos, allocuvm]
  by_cases hbig : addInt s.sz n.toInt ≥ KERNBASE
  · rw [if_pos hbig]
    exact ⟨s, -1, rfl, (Kept.refl s).good hex⟩
  have hnew : addInt s.sz n.toInt < KERNBASE := by omega
  rw [if_neg hbig, if_neg (by omega), hround]
  have hstart : Growing l.kalloc s ((s.sz + 4095) / 4096) s := by
    refine ⟨rfl, fun _ _ => rfl, fun j hj hjp => ?_, fun j hj _ hjn => ?_, fun _ _ => rfl, fun _ h => h⟩
    · unfold PGSIZE at *
      omega
    · rw [← Option.not_isSome_iff_eq_none, hex.mapped j hjn]
      omega
  have hfuel := fuel_enough hnew.le ((s.sz + 4095) / 4096)
  rcases allocLoop_spec hex hfresh hnew hgt hstart hround.le (Or.inl hround.symm) hfuel
    (fun _ j hj hjp => by unfold PGSIZE at *; omega) (fun i hi hip => by unfold PGSIZE at *; omega) with
    ⟨s', p', hloop, hgr, hge, hge₀, hlast, hpages, hfull⟩ | ⟨s', hloop, hk⟩
  · have hne : addInt s.sz n.toInt ≠ 0 := by omega
    have hexact := hgr.exact hex hfresh hnew hgt hge hlast (hfull ((hs n hl).1 hpos hnew hpages))
    refine ⟨{ s' with sz := addInt s.sz n.toInt }, s.sz, ?_, hexact, fun _ => ⟨rfl, n, hl, ?_⟩, fun i f hi hf hin => ?_, fun h => ?_⟩
    · change (Option.map _ (Option.map _ (allocLoop l.kalloc s.sz _ (PAGES + 1) ((s.sz + 4095) / 4096 * PGSIZE) s))) = _
      rw [hloop]
      simp [hne]
    · change ((addInt s.sz n.toInt : ℕ) : ℤ) = _
      omega
    · have hio := (hex.mapped i hin).1 (by rw [hf]; rfl)
      refine ⟨(hgr.old i hio).trans hf, hgr.content f fun j hj hjf => ?_⟩
      exact ((hfresh j hj f hjf).2 i hin).1 hf
    · omega
  · refine ⟨s', -1, ?_, hk.good hex⟩
    change (Option.map _ (Option.map _ (allocLoop l.kalloc s.sz _ (PAGES + 1) ((s.sz + 4095) / 4096 * PGSIZE) s))) = _
    rw [hloop]
    simp

/-- `growproc` of a negative count that leaves a byte. -/
lemma shrink_good {l : Sbrk} {n : BitVec 32} (hl : l.arg = some n) (hex : s.Exact) (hneg : n.toInt < 0)
    (hleft : -n.toInt < s.sz) : ∃ s' v, sys_sbrk l s = some (s', v) ∧ Good l s s' v := by
  have hsize := hex.size
  have hadd : (addInt s.sz n.toInt : ℤ) = s.sz + n.toInt := by
    unfold addInt KERNBASE at *
    omega
  set newsz := addInt s.sz n.toInt with hnewdef
  have hround := PGROUNDUP_eq hsize.le
  have hnewr := PGROUNDUP_eq (show newsz ≤ KERNBASE by omega)
  set q := (newsz + 4095) / 4096 with hq
  have hqp : PGROUNDUP newsz = q * PGSIZE := hnewr
  have hstart : q % NPTENTRIES = 0 ∨ (s.pgdir (q / NPTENTRIES)).isSome ∨ s.sz ≤ q * PGSIZE := by
    by_cases hend : s.sz ≤ q * PGSIZE
    · exact Or.inr (Or.inr hend)
    · refine Or.inr (Or.inl ?_)
      have hmapped := (hex.mapped q (lt_of_mul_lt (by omega) hsize.le)).2 (by unfold PGSIZE at *; omega)
      by_contra hno
      rw [Bool.not_eq_true, Option.isSome_eq_false_iff, Option.isNone_iff_eq_none] at hno
      rw [entry_none hno] at hmapped
      cases hmapped
  obtain ⟨s', hd, hs'⟩ := deallocLoop_spec hsize.le (fuel_enough hsize.le q) hstart fun j hj => hex.frame j (lt_of_mul_lt hj hsize.le)
  have hent (i : ℕ) (hi : i < PAGES) : s'.entry i = if i * PGSIZE < PGROUNDUP newsz then s.entry i else none := by
    rw [hs'.entry]
    by_cases hin : i * PGSIZE < PGROUNDUP newsz
    · rw [if_pos hin, if_neg]
      unfold PGSIZE at *
      omega
    · rw [if_neg hin]
      split_ifs with hc
      · rfl
      · rw [← Option.not_isSome_iff_eq_none, hex.mapped i hi]
        unfold PGSIZE at *
        omega
  have hne : newsz ≠ 0 := by omega
  refine ⟨{ s' with sz := newsz }, s.sz, ?_, ⟨?_, fun i hi => ?_, fun i hi h0 => ?_, fun i j f hi hj hif hjf => ?_⟩,
    fun _ => ⟨rfl, n, hl, ?_⟩, fun i f hi hf hin => ⟨?_, ?_⟩, fun h => ?_⟩
  · simp only [sys_sbrk, hl, growproc, if_neg (show ¬ n.toInt > 0 by omega), if_pos hneg, deallocuvm, ← hnewdef]
    rw [if_neg (by omega), hqp]
    change (Option.map _ (Option.map _ (Option.map _ (deallocLoop s.sz (PAGES + 1) (q * PGSIZE) s)))) = _
    rw [hd]
    simp [hne]
  · change newsz < KERNBASE
    omega
  · change (s'.entry i).isSome ↔ i * PGSIZE < PGROUNDUP newsz
    rw [hent i hi]
    split_ifs with hin
    · rw [hex.mapped i hi]
      refine iff_of_true ?_ hin
      unfold PGSIZE at *
      omega
    · simpa using hin
  · change s'.entry i = some 0 at h0
    rw [hent i hi] at h0
    split_ifs at h0
    exact hex.frame i hi h0
  · change s'.entry i = some f at hif
    change s'.entry j = some f at hjf
    rw [hent i hi] at hif
    rw [hent j hj] at hjf
    split_ifs at hif hjf
    exact hex.apart i j f hi hj hif hjf
  · exact hadd
  · exact (hent i hin).trans ((if_pos hi).trans hf)
  · refine hs'.content f fun j hj hjs hjf => ?_
    have hij := hex.apart i j f hin (lt_of_mul_lt hjs hsize.le) hf hjf
    change i * PGSIZE < PGROUNDUP newsz at hi
    unfold PGSIZE at *
    omega
  · omega

/-- Every call that is sound returns and does what it says. -/
lemma sbrk_good {l : Sbrk} (hex : s.Exact) (hfresh : l.kalloc.Fresh s) (hs : l.Sound s) :
    ∃ s' v, sys_sbrk l s = some (s', v) ∧ Good l s s' v := by
  cases hl : l.arg with
  | none => exact ⟨s, -1, by simp [sys_sbrk, hl], (Kept.refl s).good hex⟩
  | some n =>
    rcases lt_trichotomy 0 n.toInt with hpos | h0 | hneg
    · exact grow_good hl hex hfresh hpos hs
    · refine ⟨s, s.sz, by simp [sys_sbrk, hl, growproc, ← h0], hex, fun _ => ⟨rfl, n, hl, by omega⟩,
        fun i f _ hf _ => ⟨hf, rfl⟩, fun h => by omega⟩
    · rcases (hs n hl).2 hneg with hz | hleft
      · -- from an empty space the new size wraps around and nothing is done
        refine ⟨s, -1, ?_, (Kept.refl s).good hex⟩
        simp [sys_sbrk, hl, growproc, deallocuvm, show ¬ 0 < n.toInt by omega, hneg, hz]
      · exact shrink_good hl hex hneg hleft

/-! ### Sequences of calls -/

/-- One call of `sbrk`. -/
def step (l : Sbrk) (s : Space) : Option Space :=
  if l.kalloc.Fresh s then (sys_sbrk l s).map Prod.fst else none

/-- **Whatever is done with `sbrk`**, in a run of sound calls every state is exact, and there every sound
call returns and does what it says. -/
theorem exact_of_run {n : ℕ} (r : Lts.Run Space.Exact step n) (h : r.Meets fun s l => l.Sound s) (m : ℕ) (hm : m ≤ n) :
    (r.state m).Exact ∧ ∀ l : Sbrk, l.kalloc.Fresh (r.state m) → l.Sound (r.state m) →
      ∃ s' v, sys_sbrk l (r.state m) = some (s', v) ∧ Good l (r.state m) s' v := by
  have hex : (r.state m).Exact := by
    refine r.invariant_of h (fun _ hs => hs) (fun s l s' hs hsound hstep => ?_) m hm
    unfold step at hstep
    split_ifs at hstep with hfresh
    obtain ⟨s₁, v, hcall, hgood⟩ := sbrk_good hs hfresh hsound
    rw [hcall] at hstep
    cases hstep
    exact hgood.exact
  exact ⟨hex, fun l hfresh hsound => sbrk_good hex hfresh hsound⟩

/-- A process of one page. -/
def oneSpace : Space where
  sz := 4096
  pgdir := fun d => if d = 0 then some fun x => if x = 0 then some 1 else none else none
  content := fun _ _ => 7

lemma entry_oneSpace : oneSpace.entry i = if i = 0 then some 1 else none := by
  change (if i / 1024 = 0 then some fun x => if x = 0 then some 1 else none else none : Option PageTable).bind
    (fun t => t (i % 1024)) = _
  by_cases hd : i / 1024 = 0
  · rw [if_pos hd]
    exact if_congr (by omega) rfl rfl
  · rw [if_neg hd, if_neg (by omega)]
    rfl

lemma exact_oneSpace : oneSpace.Exact := by
  refine ⟨by decide, fun i hi => ?_, fun i hi => ?_, fun i j f hi hj hif hjf => ?_⟩
  · rw [entry_oneSpace, show PGROUNDUP oneSpace.sz = 4096 from rfl]
    unfold PGSIZE
    split_ifs with h
    · simp [h]
    · simp
      omega
  · rw [entry_oneSpace]
    split_ifs <;> simp
  · rw [entry_oneSpace] at hif hjf
    split_ifs at hif hjf
    omega

/-- `sbrk(n)` when memory is exhausted. -/
def sbrkFull (n : BitVec 32) : Sbrk := ⟨some n, fun _ => none, fun _ => false⟩

lemma fresh_sbrkFull {n : BitVec 32} : (sbrkFull n).kalloc.Fresh s := fun _ _ _ h => by cases h

/-- `sbrk(4096)` that gets page 2. -/
def sbrkPage : Sbrk := ⟨some 4096, fun i => if i = 1 then some 2 else none, fun _ => true⟩

lemma fresh_sbrkPage : sbrkPage.kalloc.Fresh oneSpace := by
  intro i _ f hf
  have hif : (if i = 1 then some 2 else none : Option ℕ) = some f := hf
  split_ifs at hif with hi
  cases hif
  refine ⟨by decide, fun j _ => ⟨?_, fun hj => ?_⟩⟩
  · rw [entry_oneSpace]
    split_ifs <;> simp
  · have hj' : (if j = 1 then some 2 else none : Option ℕ) = some 2 := hj
    split_ifs at hj' with h1
    rw [h1, hi]

/-- A growth by a page, and a shrink by a page. -/
theorem exact_of_run_grown : ∃ r : Lts.Run Space.Exact step 2, r.Meets (fun s l => l.Sound s) ∧
    (r.state 1).sz = 8192 ∧ (r.state 2).sz = 4096 ∧ ∀ m, m ≤ 2 → (r.state m).Exact := by
  have hgrow : sbrkPage.Sound oneSpace := by
    rintro n hn
    cases hn
    exact ⟨fun _ _ _ _ _ _ _ _ => rfl, fun h => absurd h (by decide)⟩
  obtain ⟨s₁, v₁, hcall₁, hgood₁⟩ := sbrk_good exact_oneSpace fresh_sbrkPage hgrow
  have hsz₁ : ((sys_sbrk sbrkPage oneSpace).map fun r => r.1.sz) = some 8192 := by decide +kernel
  have hsz₁' : s₁.sz = 8192 := by
    rw [hcall₁] at hsz₁
    exact Option.some.inj hsz₁
  have hshrink : (sbrkFull (-4096)).Sound s₁ := by
    rintro n hn
    cases hn
    refine ⟨fun h => absurd h (by decide), fun _ => Or.inr ?_⟩
    rw [hsz₁']
    decide
  obtain ⟨s₂, v₂, hcall₂, -⟩ := sbrk_good hgood₁.exact fresh_sbrkFull hshrink
  have hsz₂ : ((sys_sbrk sbrkPage oneSpace).bind fun r => (sys_sbrk (sbrkFull (-4096)) r.1).map fun r => r.1.sz) =
      some 4096 := by decide +kernel
  have hsz₂' : s₂.sz = 4096 := by
    rw [hcall₁, Option.bind_some, hcall₂] at hsz₂
    exact Option.some.inj hsz₂
  let r : Lts.Run Space.Exact step 2 :=
    { state := fun k => if k = 0 then oneSpace else if k = 1 then s₁ else s₂
      label := fun k => if k = 0 then sbrkPage else sbrkFull (-4096)
      starts := exact_oneSpace
      steps := fun k hk => by
        obtain rfl | rfl : k = 0 ∨ k = 1 := by omega
        · change step sbrkPage oneSpace = some s₁
          rw [step, if_pos fresh_sbrkPage, hcall₁]
          rfl
        · change step (sbrkFull (-4096)) s₁ = some s₂
          rw [step, if_pos fresh_sbrkFull, hcall₂]
          rfl }
  have hmeets : r.Meets fun s l => l.Sound s := fun k hk => by
    obtain rfl | rfl : k = 0 ∨ k = 1 := by omega
    · exact hgrow
    · exact hshrink
  exact ⟨r, hmeets, hsz₁', hsz₂', fun m hm => (exact_of_run r hmeets m hm).1⟩

/-- `sbrk(-4096)` of a process of one page frees the page and fails. -/
theorem sbrk_all_fails : ¬ ∀ (n : ℕ) (r : Lts.Run Space.Exact step n) (l : Sbrk), l.kalloc.Fresh (r.state n) →
    ∃ s' v, sys_sbrk l (r.state n) = some (s', v) ∧ Good l (r.state n) s' v := by
  intro h
  let r : Lts.Run Space.Exact step 0 :=
    { state := fun _ => oneSpace
      label := fun _ => sbrkFull 0
      starts := exact_oneSpace
      steps := fun k hk => absurd hk (Nat.not_lt_zero k) }
  obtain ⟨s', v, hcall, hgood⟩ := h 0 r (sbrkFull (-4096)) fresh_sbrkFull
  have hfail : (sys_sbrk (sbrkFull (-4096)) oneSpace).map (fun q => ((q.1.entry 0).isSome, q.2)) = some (false, -1) := by
    decide +kernel
  have hrun : sys_sbrk (sbrkFull (-4096)) oneSpace = some (s', v) := hcall
  rw [hrun] at hfail
  obtain ⟨hentry, hv⟩ := Prod.mk.inj (Option.some.inj hfail)
  have hkept := (hgood.failure hv).entry 0 (by decide)
  change s'.entry 0 = oneSpace.entry 0 at hkept
  rw [hkept] at hentry
  exact absurd hentry (by decide)

end Memory

end Os132

import Os132.Memory.Paging
import Os132.Memory.Sbrk

/-!
# What `deallocuvm` frees

A missing page table is skipped by adding a whole table's pages to the cursor. From the first page of a table
this passes over nothing else; from a later page the cursor lands as far into the next table, and the pages in
front of it are never looked at. So a call frees what it should unless it starts inside a missing table and the
next table that is there has pages in front of the cursor.
-/

namespace Os132

namespace Memory

namespace Ram

/-- `kfree`, with `lo` for the end of the kernel, below which no page is freed. -/
def kfree (lo : ℕ) (m : Ram) (v : ℕ) : Option Ram :=
  if v % PGSIZE ≠ 0 ∨ v < lo ∨ PHYSTOP ≤ v then none
  else some
    { word := fun f => if f = v then fun _ => 0x01010101 else m.word f
      bytes := fun f => if f = v then fun _ => 1 else m.bytes f
      free := v :: m.free }

/-- The loop of `deallocuvm`. -/
def deallocLoop (lo pgdir oldsz : ℕ) : ℕ → ℕ → Ram → Option Ram
  | 0, _, _ => none
  | fuel + 1, a, m =>
    if a < oldsz then
      match (m.walkpgdir pgdir a false).2 with
      | none => deallocLoop lo pgdir oldsz fuel ((a + (NPTENTRIES - 1) * PGSIZE + PGSIZE) % 4294967296) m
      | some (pgtab, i) =>
        if Present (m.word pgtab i) then
          if PTE_ADDR (m.word pgtab i) = 0 then none
          else
            (m.kfree lo (PTE_ADDR (m.word pgtab i))).bind fun m =>
              deallocLoop lo pgdir oldsz fuel ((a + PGSIZE) % 4294967296) (m.setWord pgtab i 0)
        else deallocLoop lo pgdir oldsz fuel ((a + PGSIZE) % 4294967296) m
    else some m

def deallocuvm (lo : ℕ) (m : Ram) (pgdir oldsz newsz : ℕ) : Option (Ram × ℕ) :=
  if newsz ≥ oldsz then some (m, oldsz)
  else (deallocLoop lo pgdir oldsz PAGES.succ (PGROUNDUP newsz) m).map fun m => (m, newsz)

/-- The user pages of the directory below `oldsz` are pages that `kalloc` has given, and no page tables. -/
def Held (lo : ℕ) (m : Ram) (pgdir oldsz : ℕ) : Prop :=
  ∀ q, q * 4096 < oldsz → Present (m.pte pgdir (q * 4096)) →
    PTE_ADDR (m.pte pgdir (q * 4096)) ≠ 0 ∧ lo ≤ PTE_ADDR (m.pte pgdir (q * 4096)) ∧
      PTE_ADDR (m.pte pgdir (q * 4096)) < PHYSTOP ∧ PTE_ADDR (m.pte pgdir (q * 4096)) ≠ pgdir ∧
      ¬ m.Table pgdir (PTE_ADDR (m.pte pgdir (q * 4096)))

/-- Every page from `p` on that is present below `oldsz` was freed once and its entry cleared, in order, and
nothing else changed in the directory. -/
structure Frees (m : Ram) (pgdir oldsz p : ℕ) (m' : Ram) : Prop where
  entry : ∀ x < 4294967296, m'.pte pgdir x =
    if p ≤ x / 4096 ∧ x / 4096 * 4096 < oldsz ∧ Present (m.pte pgdir x) then 0 else m.pte pgdir x
  free : ∃ l : List ℕ, l.Pairwise (· < ·) ∧
    (∀ q, q ∈ l ↔ p ≤ q ∧ q * 4096 < oldsz ∧ Present (m.pte pgdir (q * 4096))) ∧
    m'.free = (l.map fun q => PTE_ADDR (m.pte pgdir (q * 4096))).reverse ++ m.free

variable {m m' : Ram} {lo pgdir oldsz newsz p q x fuel f v : ℕ}

lemma pte_page : m.pte pgdir (x / 4096 * 4096) = m.pte pgdir x := by
  have hd : PDX (x / 4096 * 4096) = PDX x := by
    unfold PDX
    omega
  have ht : PTX (x / 4096 * 4096) = PTX x := by
    unfold PTX
    omega
  unfold pte
  rw [hd, ht]

lemma not_present_of_missing (h : ¬ Present (m.word pgdir (PDX x))) : ¬ Present (m.pte pgdir x) := by
  rw [pte, if_neg h]
  decide

/-! ### Passes of the loop -/

lemma Frees.nil (h : oldsz ≤ p * 4096) : Frees m pgdir oldsz p m := by
  refine ⟨fun x _ => ?_, [], .nil, fun q => ?_, rfl⟩
  · rw [if_neg]
    rintro ⟨hp, hx, -⟩
    omega
  · simp only [List.not_mem_nil, false_iff]
    rintro ⟨hp, hx, -⟩
    omega

/-- Pages that are not present need no pass. -/
lemma Frees.skip (hpq : p ≤ q) (hnot : ∀ j, p ≤ j → j < q → j * 4096 < oldsz → ¬ Present (m.pte pgdir (j * 4096)))
    (h : Frees m pgdir oldsz q m') : Frees m pgdir oldsz p m' := by
  obtain ⟨l, hsort, hmem, hfree⟩ := h.free
  have hiff (j : ℕ) : (p ≤ j ∧ j * 4096 < oldsz ∧ Present (m.pte pgdir (j * 4096))) ↔
      q ≤ j ∧ j * 4096 < oldsz ∧ Present (m.pte pgdir (j * 4096)) := by
    constructor
    · rintro ⟨hp, hj, hpres⟩
      refine ⟨?_, hj, hpres⟩
      by_contra hlt
      exact hnot j hp (by omega) hj hpres
    · rintro ⟨hq, hj, hpres⟩
      exact ⟨by omega, hj, hpres⟩
  refine ⟨fun x hx => ?_, l, hsort, fun j => by rw [hmem, hiff], hfree⟩
  rw [h.entry x hx]
  have := hiff (x / 4096)
  rw [pte_page] at this
  exact if_congr this.symm rfl rfl

/-- The memory after the page of `a` was freed. -/
lemma entry_freed (hd : m.Directory pgdir) (hp : Present (m.word pgdir (PDX v))) (hne : f ≠ pgdir) (hnt : ¬ m.Table pgdir f)
    {b : ℕ → ℕ → UInt8} {l : List ℕ} :
    (({ word := fun g => if g = f then fun _ => 0x01010101 else m.word g, bytes := b, free := l } : Ram).setWord
      (PTE_ADDR (m.word pgdir (PDX v))) (PTX v) 0).Directory pgdir ∧
    (({ word := fun g => if g = f then fun _ => 0x01010101 else m.word g, bytes := b, free := l } : Ram).setWord
      (PTE_ADDR (m.word pgdir (PDX v))) (PTX v) 0).word pgdir = m.word pgdir ∧
    ∀ x, (({ word := fun g => if g = f then fun _ => 0x01010101 else m.word g, bytes := b, free := l } : Ram).setWord
      (PTE_ADDR (m.word pgdir (PDX v))) (PTX v) 0).pte pgdir x =
        if PDX x = PDX v ∧ PTX x = PTX v then 0 else m.pte pgdir x := by
  set m₁ : Ram := { word := fun g => if g = f then fun _ => 0x01010101 else m.word g, bytes := b, free := l } with hm₁
  have hdir : m₁.word pgdir = m.word pgdir := by simp [hm₁, Ne.symm hne]
  have hd₁ : m₁.Directory pgdir := by
    refine ⟨?_, ?_⟩
    · rw [hdir]
      exact hd.apart
    · unfold Table
      rw [hdir]
      exact hd.self
  have hpte (x : ℕ) : m₁.pte pgdir x = m.pte pgdir x := by
    unfold pte
    rw [hdir]
    split_ifs with hx
    · have hnf : PTE_ADDR (m.word pgdir (PDX x)) ≠ f := fun h => hnt (h ▸ table_pdx hx)
      simp [hm₁, hnf]
    · rfl
  have hself : pgdir ≠ PTE_ADDR (m.word pgdir (PDX v)) := by
    intro h
    have ht := table_pdx hp
    rw [← h] at ht
    exact hd.self ht
  refine ⟨hd₁.setWord hself, (word_setWord_of_ne hself).trans hdir, fun x => ?_⟩
  have hset := pte_setWord (x := x) (v := 0) hd₁ (by rw [hdir]; exact hp)
  rw [hdir] at hset
  rw [hset, hpte]

/-- A pass at an address whose table is there. -/
lemma deallocLoop_table {a : ℕ} (hlt : a < oldsz) (hp : Present (m.word pgdir (PDX a))) :
    deallocLoop lo pgdir oldsz (fuel + 1) a m =
      if Present (m.pte pgdir a) then
        if PTE_ADDR (m.pte pgdir a) = 0 then none
        else (m.kfree lo (PTE_ADDR (m.pte pgdir a))).bind fun m' =>
          deallocLoop lo pgdir oldsz fuel ((a + PGSIZE) % 4294967296)
            (m'.setWord (PTE_ADDR (m.word pgdir (PDX a))) (PTX a) 0)
      else deallocLoop lo pgdir oldsz fuel ((a + PGSIZE) % 4294967296) m := by
  have hentry : m.word (PTE_ADDR (m.word pgdir (PDX a))) (PTX a) = m.pte pgdir a := by rw [pte, if_pos hp]
  have hwalk : (m.walkpgdir pgdir a false).2 = some (PTE_ADDR (m.word pgdir (PDX a)), PTX a) := by simp [walkpgdir, hp]
  rw [deallocLoop, if_pos hlt, hwalk]
  dsimp only
  rw [hentry]

lemma deallocLoop_missing {a : ℕ} (hlt : a < oldsz) (hp : ¬ Present (m.word pgdir (PDX a))) :
    deallocLoop lo pgdir oldsz (fuel + 1) a m =
      deallocLoop lo pgdir oldsz fuel ((a + (NPTENTRIES - 1) * PGSIZE + PGSIZE) % 4294967296) m := by
  have hwalk : (m.walkpgdir pgdir a false).2 = none := by simp [walkpgdir, hp]
  rw [deallocLoop, if_pos hlt, hwalk]

lemma next_page {old : ℕ} (hlt : p * 4096 < old) (hold : old ≤ KERNBASE) :
    (p * 4096 + PGSIZE) % 4294967296 = (p + 1) * 4096 ∧
      (p * 4096 + (NPTENTRIES - 1) * PGSIZE + PGSIZE) % 4294967296 = (p + 1024) * 4096 ∧ p < 524288 := by
  unfold PGSIZE NPTENTRIES KERNBASE at *
  omega

lemma page_lt (h : p < 524288) : p * 4096 < 4294967296 := by omega

/-- A page is freed, and then those behind it. -/
lemma Frees.cons {m₁ : Ram} {f : ℕ} (hold : oldsz ≤ KERNBASE) (hlt : p * 4096 < oldsz)
    (hpres : Present (m.pte pgdir (p * 4096)))
    (hf : f = PTE_ADDR (m.pte pgdir (p * 4096))) (hfree : m₁.free = f :: m.free)
    (hpte : ∀ x, m₁.pte pgdir x = if PDX x = PDX (p * 4096) ∧ PTX x = PTX (p * 4096) then 0 else m.pte pgdir x)
    (h : Frees m₁ pgdir oldsz (p + 1) m') : Frees m pgdir oldsz p m' := by
  have hp := (next_page hlt hold).2.2
  have hpage {x : ℕ} (hx : x < 4294967296) : m₁.pte pgdir x = if x / 4096 = p then 0 else m.pte pgdir x := by
    rw [hpte]
    apply if_congr _ rfl rfl
    rw [same_page hx (by omega), Nat.mul_div_cancel p (by decide)]
  have hbehind {q : ℕ} (hq : p + 1 ≤ q) (hqo : q * 4096 < oldsz) : m₁.pte pgdir (q * 4096) = m.pte pgdir (q * 4096) := by
    have hq32 := (next_page hqo hold).2.2
    have hlt32 := page_lt hq32
    have hdiv : q * 4096 / 4096 = q := Nat.mul_div_cancel q (show 0 < 4096 by decide)
    have hqp : q ≠ p := by omega
    rw [hpage hlt32, hdiv, if_neg hqp]
  have hzero : ¬ Present 0 := by decide
  obtain ⟨l, hsort, hmem, hl⟩ := h.free
  refine ⟨fun x hx => ?_, p :: l, ?_, fun q => ?_, ?_⟩
  · rw [h.entry x hx, hpage hx]
    by_cases hxp : x / 4096 = p
    · have hx' : m.pte pgdir x = m.pte pgdir (p * 4096) := by rw [← hxp, pte_page]
      rw [if_pos hxp, if_neg (fun hc => hzero hc.2.2), if_pos ⟨by omega, by rwa [hxp], by rwa [hx']⟩]
    · rw [if_neg hxp]
      apply if_congr _ rfl rfl
      constructor
      · rintro ⟨h1, h2⟩
        exact ⟨by omega, h2⟩
      · rintro ⟨h1, h2⟩
        exact ⟨by omega, h2⟩
  · rw [List.pairwise_cons]
    refine ⟨fun q hq => ?_, hsort⟩
    have := ((hmem q).1 hq).1
    omega
  · rw [List.mem_cons, hmem]
    constructor
    · rintro (rfl | ⟨h1, h2, h3⟩)
      · exact ⟨le_rfl, hlt, hpres⟩
      · rw [hbehind h1 h2] at h3
        exact ⟨by omega, h2, h3⟩
    · rintro ⟨h1, h2, h3⟩
      by_cases hqp : q = p
      · exact Or.inl hqp
      · right
        refine ⟨by omega, h2, ?_⟩
        rwa [hbehind (by omega) h2]
  · have hmap : l.map (fun q => PTE_ADDR (m₁.pte pgdir (q * 4096))) = l.map fun q => PTE_ADDR (m.pte pgdir (q * 4096)) := by
      apply List.map_congr_left
      intro q hq
      rw [hbehind ((hmem q).1 hq).1 ((hmem q).1 hq).2.1]
    rw [hl, hmap, hfree, hf]
    simp

/-- From a page whose table is there, or the first page of a missing table, nothing is passed over. -/
lemma deallocLoop_frees (hold : oldsz ≤ KERNBASE) (hfuel : oldsz ≤ (p + fuel) * PGSIZE)
    (hstart : p % 1024 = 0 ∨ Present (m.word pgdir (p / 1024)) ∨ oldsz ≤ p * 4096) (hd : m.Directory pgdir)
    (hheld : Held lo m pgdir oldsz) :
    ∃ m', deallocLoop lo pgdir oldsz (fuel + 1) (p * 4096) m = some m' ∧ Frees m pgdir oldsz p m' := by
  induction fuel generalizing p m with
  | zero =>
    have hend : oldsz ≤ p * 4096 := hfuel
    exact ⟨m, by rw [deallocLoop, if_neg (by omega)], Frees.nil hend⟩
  | succ fuel ih =>
    by_cases hlt : p * 4096 < oldsz
    · obtain ⟨hnext, hskip, hp32⟩ := next_page hlt hold
      have hpdx : PDX (p * 4096) = p / 1024 := pdx_page (by omega)
      have hfuel' : oldsz ≤ (p + 1 + fuel) * PGSIZE := by rwa [show p + 1 + fuel = p + (fuel + 1) by omega]
      by_cases hp : Present (m.word pgdir (p / 1024))
      · have hslot : (p + 1) % 1024 = 0 ∨ Present (m.word pgdir ((p + 1) / 1024)) ∨ oldsz ≤ (p + 1) * 4096 := by
          by_cases h0 : (p + 1) % 1024 = 0
          · exact Or.inl h0
          · right
            left
            rw [show (p + 1) / 1024 = p / 1024 by omega]
            exact hp
        rw [deallocLoop_table hlt (by rwa [hpdx]), hnext]
        by_cases hpres : Present (m.pte pgdir (p * 4096))
        · obtain ⟨hne0, hlo, hstop, hdir, htab⟩ := hheld p hlt hpres
          obtain ⟨f, hf⟩ : ∃ f, f = PTE_ADDR (m.pte pgdir (p * 4096)) := ⟨_, rfl⟩
          rw [← hf] at hne0 hlo hstop hdir htab
          have haligned : f % PGSIZE = 0 := by
            rw [hf]
            exact Nat.mul_mod_left _ _
          have hk : m.kfree lo f = some
              { word := fun g => if g = f then fun _ => 0x01010101 else m.word g
                bytes := fun g => if g = f then fun _ => 1 else m.bytes g
                free := f :: m.free } := by
            rw [kfree, if_neg]
            rintro (h | h | h)
            · exact h haligned
            · exact absurd hlo (by rwa [Nat.not_le])
            · exact absurd hstop (by rwa [Nat.not_lt])
          rw [if_pos hpres, ← hf, if_neg hne0, hk, Option.bind_some]
          obtain ⟨hd₁, hdir₁, hpte₁⟩ := entry_freed (m := m) (b := fun g => if g = f then fun _ => 1 else m.bytes g)
            (l := f :: m.free) hd (show Present (m.word pgdir (PDX (p * 4096))) by rwa [hpdx]) hdir htab
          generalize hm₁ : (({ word := fun g => if g = f then fun _ => 0x01010101 else m.word g
                               bytes := fun g => if g = f then fun _ => 1 else m.bytes g
                               free := f :: m.free } : Ram).setWord
              (PTE_ADDR (m.word pgdir (PDX (p * 4096)))) (PTX (p * 4096)) 0) = m₁ at hd₁ hdir₁ hpte₁ ⊢
          have hheld₁ : Held lo m₁ pgdir oldsz := by
            intro q hq hpq
            rw [hpte₁] at hpq ⊢
            split_ifs at hpq ⊢
            · exact absurd hpq (by decide)
            · unfold Table
              rw [hdir₁]
              exact hheld q hq hpq
          obtain ⟨m', hloop, hm'⟩ := ih (p := p + 1) (m := m₁) hfuel' (by rwa [hdir₁]) hd₁ hheld₁
          refine ⟨m', hloop, hm'.cons hold hlt hpres hf ?_ hpte₁⟩
          rw [← hm₁]
          rfl
        · rw [if_neg hpres]
          obtain ⟨m', hloop, hm'⟩ := ih (p := p + 1) hfuel' hslot hd hheld
          refine ⟨m', hloop, hm'.skip (by omega) fun j hj hjq hjo => ?_⟩
          obtain rfl : j = p := by omega
          exact hpres
      · have hp0 : p % 1024 = 0 := by
          rcases hstart with h | h | h
          · exact h
          · exact absurd h hp
          · omega
        rw [deallocLoop_missing hlt (by rwa [hpdx]), hskip]
        obtain ⟨m', hloop, hm'⟩ := ih (p := p + 1024) (m := m)
          (hfuel.trans (Nat.mul_le_mul_right PGSIZE (by omega))) (Or.inl (by omega)) hd hheld
        refine ⟨m', hloop, hm'.skip (by omega) fun j hj hjq hjo => ?_⟩
        have hj32 := (next_page hjo hold).2.2
        apply not_present_of_missing
        rw [pdx_page (by omega), show j / 1024 = p / 1024 by omega]
        exact hp
    · exact ⟨m, by rw [deallocLoop, if_neg hlt], Frees.nil (by omega)⟩

/-! ### The cursor behind a missing table -/

/-- The cursor moves by whole tables until one is there, or to the end. -/
lemma deallocLoop_skip (hold : oldsz ≤ KERNBASE) (hfuel : oldsz ≤ (p + fuel) * PGSIZE) :
    ∃ n q, deallocLoop lo pgdir oldsz (fuel + 1) (p * 4096) m = deallocLoop lo pgdir oldsz (n + 1) (q * 4096) m ∧
      q % 1024 = p % 1024 ∧ p ≤ q ∧ oldsz ≤ (q + n) * PGSIZE ∧
      (∀ d, p / 1024 ≤ d → d < q / 1024 → ¬ Present (m.word pgdir d)) ∧
      (Present (m.word pgdir (q / 1024)) ∨ oldsz ≤ q * 4096) := by
  induction fuel generalizing p with
  | zero => exact ⟨0, p, rfl, rfl, le_rfl, hfuel, fun d h1 h2 => by omega, Or.inr hfuel⟩
  | succ fuel ih =>
    by_cases hp : Present (m.word pgdir (p / 1024))
    · exact ⟨fuel + 1, p, rfl, rfl, le_rfl, hfuel, fun d h1 h2 => by omega, Or.inl hp⟩
    by_cases hlt : p * 4096 < oldsz
    · obtain ⟨-, hskip, hp32⟩ := next_page hlt hold
      have hpdx : PDX (p * 4096) = p / 1024 := pdx_page (by omega)
      obtain ⟨n, q, hloop, hmod, hle, hn, hmiss, hend⟩ :=
        ih (p := p + 1024) (hfuel.trans (Nat.mul_le_mul_right PGSIZE (by omega)))
      refine ⟨n, q, ?_, by omega, by omega, hn, fun d h1 h2 => ?_, hend⟩
      · rw [deallocLoop_missing hlt (by rwa [hpdx]), hskip, hloop]
      · by_cases hdp : d = p / 1024
        · rwa [hdp]
        · exact hmiss d (by omega) h2
    · exact ⟨fuel + 1, p, rfl, rfl, le_rfl, hfuel, fun d h1 h2 => by omega, Or.inr (by omega)⟩

/-- What is freed from page `q` on is what should be freed from page `p` on if no page between them is present. -/
lemma frees_iff (hold : oldsz ≤ KERNBASE) (hpq : p ≤ q) (h : Frees m pgdir oldsz q m') :
    Frees m pgdir oldsz p m' ↔ ∀ j, p ≤ j → j < q → j * 4096 < oldsz → ¬ Present (m.pte pgdir (j * 4096)) := by
  constructor
  · intro hp j hpj hjq hj hpres
    have hj32 := (next_page hj hold).2.2
    have hlt32 : j * 4096 < 4294967296 := by omega
    have hdiv : j * 4096 / 4096 = j := Nat.mul_div_cancel j (show 0 < 4096 by decide)
    have hclear := hp.entry _ hlt32
    rw [if_pos (by rw [hdiv]; exact ⟨hpj, hj, hpres⟩), h.entry _ hlt32, if_neg (by rw [hdiv]; omega)] at hclear
    rw [hclear] at hpres
    exact absurd hpres (by decide)
  · exact fun hnot => h.skip hpq hnot

/-- The cursor passes over no page that is present: it starts at the first page of a table, or in a table that is
there, or the first table there behind it has no page present in front of the place where the cursor lands. -/
def Meets (m : Ram) (pgdir oldsz p : ℕ) : Prop :=
  p % 1024 = 0 ∨ Present (m.word pgdir (p / 1024)) ∨
    ∀ d, p / 1024 < d → (∀ e, p / 1024 ≤ e → e < d → ¬ Present (m.word pgdir e)) →
      ∀ j < p % 1024, (d * 1024 + j) * 4096 < oldsz → ¬ Present (m.pte pgdir ((d * 1024 + j) * 4096))

/-- **When `deallocuvm` frees the pages from `PGROUNDUP(newsz)` to `oldsz`**, each once, clears their entries and
changes no other: exactly if the cursor passes over no page that is present. -/
theorem deallocuvm_frees_iff (hold : oldsz ≤ KERNBASE) (hd : m.Directory pgdir) (hheld : Held lo m pgdir oldsz) :
    (∃ m' r, m.deallocuvm lo pgdir oldsz newsz = some (m', r) ∧ Frees m pgdir oldsz ((newsz + 4095) / 4096) m') ↔
      m.Meets pgdir oldsz ((newsz + 4095) / 4096) := by
  obtain ⟨p, hp⟩ : ∃ p, p = (newsz + 4095) / 4096 := ⟨_, rfl⟩
  rw [← hp]
  by_cases hge : newsz ≥ oldsz
  · have hcall : m.deallocuvm lo pgdir oldsz newsz = some (m, oldsz) := if_pos hge
    refine iff_of_true ⟨m, oldsz, hcall, Frees.nil (by omega)⟩ (Or.inr (Or.inr fun d hd' _ j _ hj => ?_))
    omega
  have hround : PGROUNDUP newsz = p * 4096 := by
    rw [PGROUNDUP_eq (by omega), hp]
  have hcall : m.deallocuvm lo pgdir oldsz newsz =
      (deallocLoop lo pgdir oldsz (PAGES + 1) (p * 4096) m).map fun m => (m, newsz) := by
    rw [deallocuvm, if_neg hge, hround]
  have hfuel := fuel_enough hold p
  -- what the call does decides the left side
  have hdecide : ∀ {m₁ : Ram}, deallocLoop lo pgdir oldsz (PAGES + 1) (p * 4096) m = some m₁ →
      ((∃ m' r, m.deallocuvm lo pgdir oldsz newsz = some (m', r) ∧ Frees m pgdir oldsz p m') ↔
        Frees m pgdir oldsz p m₁) := by
    intro m₁ h₁
    rw [hcall, h₁]
    simp
  by_cases hstart : p % 1024 = 0 ∨ Present (m.word pgdir (p / 1024))
  · obtain ⟨m₁, hloop, hm₁⟩ := deallocLoop_frees hold hfuel (hstart.imp_right Or.inl) hd hheld
    rw [hdecide hloop]
    exact iff_of_true hm₁ (hstart.imp_right Or.inl)
  obtain ⟨hmod, hmiss⟩ := not_or.1 hstart
  obtain ⟨n, q, hskip, hqmod, hpq, hn, hgap, hend⟩ := @deallocLoop_skip m lo pgdir oldsz p PAGES hold hfuel
  obtain ⟨m₁, hloop, hm₁⟩ := deallocLoop_frees hold hn (Or.inr hend) hd hheld
  rw [hdecide (hskip.trans hloop), frees_iff hold hpq hm₁, Meets]
  constructor
  · intro hnot
    refine Or.inr (Or.inr fun d hlt hbefore j hj hjo => ?_)
    apply hnot _ (by omega) _ hjo
    rcases hend with hpres | hlast
    · have hdq : d ≤ q / 1024 := by
        by_contra hdq
        exact hbefore _ (Nat.div_le_div_right hpq) (by omega) hpres
      clear hjo
      omega
    · exact Nat.lt_of_mul_lt_mul_right (hjo.trans_le hlast)
  · rintro (h | h | h) j hpj hjq hjo
    · exact absurd h hmod
    · exact absurd h hmiss
    · have hj32 := (next_page hjo hold).2.2
      by_cases hdq : j / 1024 < q / 1024
      · apply not_present_of_missing
        rw [pdx_page (by omega)]
        exact hgap _ (by omega) hdq
      · have hj := h (j / 1024) (by omega) (fun e h1 h2 => hgap e h1 (by omega)) (j % 1024) (by omega)
        rw [show j / 1024 * 1024 + j % 1024 = j by omega] at hj
        exact hj hjo

/-- A directory at 4096 without its first page table; the second one, at 8192, maps a page. -/
def secondTable : Ram where
  word := fun f i => if f = 4096 ∧ i = 1 then 8199 else if f = 8192 ∧ i = 0 then 0x100007 else 0
  bytes := fun _ _ => 0
  free := []

lemma word_secondTable : secondTable.word 4096 v = if v = 1 then 8199 else 0 := by
  simp [secondTable]

lemma table_secondTable : secondTable.Table 4096 f ↔ f = 8192 := by
  unfold Table
  simp only [word_secondTable]
  constructor
  · rintro ⟨i, -, hp, rfl⟩
    split_ifs at hp ⊢
    · rfl
    · exact absurd hp (by decide)
  · rintro rfl
    exact ⟨1, by decide, by decide, by decide⟩

lemma directory_secondTable : secondTable.Directory 4096 := by
  refine ⟨fun i _ j _ hi hj _ => ?_, by rw [table_secondTable]; decide⟩
  rw [word_secondTable] at hi hj
  split_ifs at hi hj with h1 h2
  · rw [h1, h2]
  · exact absurd hj (by decide)
  · exact absurd hi (by decide)
  · exact absurd hi (by decide)

lemma held_secondTable : Held 0x100000 secondTable 4096 oldsz := by
  intro q _ hpres
  have hpte : secondTable.pte 4096 (q * 4096) = if PDX (q * 4096) = 1 ∧ PTX (q * 4096) = 0 then 0x100007 else 0 := by
    unfold pte
    rw [word_secondTable]
    by_cases h : PDX (q * 4096) = 1
    · rw [if_pos h, if_pos (show Present 8199 by decide)]
      simp [secondTable, h, PTE_ADDR]
    · rw [if_neg h, if_neg (show ¬ Present 0 by decide), if_neg (fun hc => h hc.1)]
  rw [hpte] at hpres ⊢
  split_ifs at hpres ⊢
  · rw [table_secondTable]
    decide
  · exact absurd hpres (by decide)

theorem deallocuvm_frees_iff_secondTable :
    (∃ m' r, secondTable.deallocuvm 0x100000 4096 0x401000 0 = some (m', r) ∧ Frees secondTable 4096 0x401000 0 m') :=
  (deallocuvm_frees_iff (by decide) directory_secondTable held_secondTable).2 (Or.inl (by decide))

/-- From the second page of the missing table the cursor lands behind the page of the next one. -/
theorem deallocuvm_passes_over : ¬ ∀ (lo : ℕ) (m : Ram) (pgdir oldsz newsz : ℕ), oldsz ≤ KERNBASE → m.Directory pgdir →
    Held lo m pgdir oldsz →
    ∃ m' r, m.deallocuvm lo pgdir oldsz newsz = some (m', r) ∧ Frees m pgdir oldsz ((newsz + 4095) / 4096) m' := by
  intro h
  obtain ⟨m', r, hcall, hm'⟩ := h 0x100000 secondTable 4096 0x401000 4096 (by decide) directory_secondTable held_secondTable
  have hleft : (secondTable.deallocuvm 0x100000 4096 0x401000 4096).map (fun s => s.1.pte 4096 0x400000) =
      some 0x100007 := by
    decide +kernel
  rw [hcall] at hleft
  have hkept : m'.pte 4096 0x400000 = 0x100007 := Option.some.inj hleft
  have hclear := hm'.entry 0x400000 (by decide)
  rw [if_pos (by decide), hkept] at hclear
  exact absurd hclear (by decide)

end Ram

end Memory

end Os132

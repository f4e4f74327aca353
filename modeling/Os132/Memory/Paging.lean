import Os132.Memory.Space

/-!
# Page directories in memory (vm.c, mmu.h)

The page tables word by word: a page directory is a page of 1024 words, a word with `PTE_P` holds the address
of a page table, and a word of that with `PTE_P` the address of a page. `word` shows the pages of physical
memory as words, as page tables are read, and `bytes` as bytes, as user memory is read; no page is used in
both ways at a time. Addresses are physical here, `p2v` and `v2p` do not show. A function returns `none`
where the source panics.
-/

namespace Os132

namespace Memory

def PTE_P : ℕ := 1
def PTE_W : ℕ := 2
def PTE_U : ℕ := 4

def PDX (va : ℕ) : ℕ := va / 4194304 % 1024
def PTX (va : ℕ) : ℕ := va / 4096 % 1024

/-- `PTE_ADDR(pte)` -/
def PTE_ADDR (pte : ℕ) : ℕ := pte / 4096 * 4096

def PGROUNDDOWN (a : ℕ) : ℕ := a / 4096 * 4096

/-- `pte & PTE_P` -/
def Present (pte : ℕ) : Prop := pte % 2 = 1

/-- `pte & PTE_U` -/
def User (pte : ℕ) : Prop := pte / 4 % 2 = 1

/-- `pte & PTE_W` -/
def Writable (pte : ℕ) : Prop := pte / 2 % 2 = 1

instance (pte : ℕ) : Decidable (Present pte) := inferInstanceAs (Decidable (_ = _))
instance (pte : ℕ) : Decidable (User pte) := inferInstanceAs (Decidable (_ = _))
instance (pte : ℕ) : Decidable (Writable pte) := inferInstanceAs (Decidable (_ = _))

/-- Physical memory and `kmem.freelist`. -/
structure Ram where
  word : ℕ → ℕ → ℕ
  bytes : ℕ → ℕ → UInt8
  free : List ℕ

namespace Ram

/-- A store to word `i` of page `f`. -/
def setWord (m : Ram) (f i v : ℕ) : Ram :=
  { m with word := fun g j => if g = f ∧ j = i then v else m.word g j }

/-- `memset(f, 0, PGSIZE)` -/
def clear (m : Ram) (f : ℕ) : Ram :=
  { m with
    word := fun g => if g = f then fun _ => 0 else m.word g
    bytes := fun g => if g = f then fun _ => 0 else m.bytes g }

def kalloc (m : Ram) : Option (ℕ × Ram) :=
  match m.free with
  | [] => none
  | f :: free => some (f, { m with free := free })

/-- The entry for `va` in the page directory: a page table and an index in it. -/
def walkpgdir (m : Ram) (pgdir : ℕ) (va : ℕ) (alloc : Bool) : Ram × Option (ℕ × ℕ) :=
  let pde := m.word pgdir (PDX va)
  if Present pde then (m, some (PTE_ADDR pde, PTX va))
  else if alloc then
    match m.kalloc with
    | none => (m, none)
    | some (pgtab, m) => ((m.clear pgtab).setWord pgdir (PDX va) (pgtab ||| PTE_P ||| PTE_W ||| PTE_U), some (pgtab, PTX va))
  else (m, none)

/-- The loop of `mappages`; the address space has `2 ^ 20` pages, so that many passes suffice. -/
def mapLoop (pgdir : ℕ) (last perm : ℕ) : ℕ → ℕ → ℕ → Ram → Option (Ram × ℤ)
  | 0, _, _, _ => none
  | fuel + 1, a, pa, m =>
    match m.walkpgdir pgdir a true with
    | (m, none) => some (m, -1)
    | (m, some (pgtab, i)) =>
      -- "remap"
      if Present (m.word pgtab i) then none
      else
        let m := m.setWord pgtab i (pa ||| perm ||| PTE_P)
        if a = last then some (m, 0)
        else mapLoop pgdir last perm fuel ((a + PGSIZE) % 4294967296) ((pa + PGSIZE) % 4294967296) m

def mappages (m : Ram) (pgdir : ℕ) (va size pa perm : ℕ) : Option (Ram × ℤ) :=
  mapLoop pgdir (PGROUNDDOWN ((va + size - 1) % 4294967296)) perm 1048576 (PGROUNDDOWN va) pa m

/-! ### What a directory means -/

/-- The word for `va`, 0 where there is no page table. -/
def pte (m : Ram) (pgdir : ℕ) (va : ℕ) : ℕ :=
  if Present (m.word pgdir (PDX va)) then m.word (PTE_ADDR (m.word pgdir (PDX va))) (PTX va) else 0

/-- The physical address of `va` and the flags of its page. -/
def translate (m : Ram) (pgdir : ℕ) (va : ℕ) : Option (ℕ × ℕ) :=
  if Present (m.pte pgdir va) then some (PTE_ADDR (m.pte pgdir va) + va % 4096, m.pte pgdir va % 4096) else none

/-- Page `t` is a page table of the directory. -/
def Table (m : Ram) (pgdir t : ℕ) : Prop :=
  ∃ i < 1024, Present (m.word pgdir i) ∧ PTE_ADDR (m.word pgdir i) = t

/-- Each page table stands in one place of the directory. -/
structure Directory (m : Ram) (pgdir : ℕ) : Prop where
  apart : ∀ i < 1024, ∀ j < 1024, Present (m.word pgdir i) → Present (m.word pgdir j) →
    PTE_ADDR (m.word pgdir i) = PTE_ADDR (m.word pgdir j) → i = j
  self : ¬ m.Table pgdir pgdir

/-- The pages that `kalloc` has to give are pages, differ, and are not in use in the directory. -/
structure Spare (m : Ram) (pgdir : ℕ) : Prop where
  nodup : m.free.Nodup
  aligned : ∀ f ∈ m.free, f % 4096 = 0
  directory : pgdir ∉ m.free
  table : ∀ f ∈ m.free, ¬ m.Table pgdir f

variable {m m' : Ram} {pgdir f t va x a pa perm i v : ℕ}

lemma pdx_lt : PDX va < 1024 := Nat.mod_lt _ (by decide)

lemma pdx_page {p : ℕ} (h : p < 1048576) : PDX (p * 4096) = p / 1024 := by
  unfold PDX
  omega

lemma same_page (hx : x < 4294967296) (hv : va < 4294967296) : (PDX x = PDX va ∧ PTX x = PTX va) ↔ x / 4096 = va / 4096 := by
  unfold PDX PTX
  omega

lemma or_flags {p : ℕ} (hf : f % 4096 = 0) (hp : p < 4096) : f ||| p = f + p := by
  obtain ⟨k, rfl⟩ : ∃ k, f = 2 ^ 12 * k := ⟨f / 4096, by omega⟩
  exact (Nat.two_pow_add_eq_or_of_lt hp k).symm

lemma or_present {p : ℕ} (hp : p < 4096) : p ||| PTE_P < 4096 ∧ Present (p ||| PTE_P) := by
  refine ⟨Nat.or_lt_two_pow (n := 12) hp (by decide), ?_⟩
  unfold Present PTE_P
  rw [Nat.or_mod_two_eq_one]
  simp

lemma table_pdx (hp : Present (m.word pgdir (PDX va))) : m.Table pgdir (PTE_ADDR (m.word pgdir (PDX va))) :=
  ⟨PDX va, pdx_lt, hp, rfl⟩

lemma word_setWord_of_ne (h : pgdir ≠ f) : (m.setWord f i v).word pgdir = m.word pgdir := by
  ext j
  simp [setWord, h]

/-- A store to the entry of `va`. -/
lemma pte_setWord (hd : m.Directory pgdir) (hp : Present (m.word pgdir (PDX va))) :
    (m.setWord (PTE_ADDR (m.word pgdir (PDX va))) (PTX va) v).pte pgdir x =
      if PDX x = PDX va ∧ PTX x = PTX va then v else m.pte pgdir x := by
  have hne : pgdir ≠ PTE_ADDR (m.word pgdir (PDX va)) := by
    intro h
    have ht := table_pdx hp
    rw [← h] at ht
    exact hd.self ht
  unfold pte
  rw [word_setWord_of_ne hne]
  by_cases hx : PDX x = PDX va
  · rw [hx, if_pos hp, if_pos hp]
    simp [setWord]
  · by_cases hpx : Present (m.word pgdir (PDX x))
    · rw [if_pos hpx, if_pos hpx, if_neg (fun h => hx h.1)]
      have hta : PTE_ADDR (m.word pgdir (PDX x)) ≠ PTE_ADDR (m.word pgdir (PDX va)) :=
        fun h => hx (hd.apart _ pdx_lt _ pdx_lt hpx hp h)
      rw [word_setWord_of_ne hta]
    · rw [if_neg hpx, if_neg hpx, if_neg (fun h => hx h.1)]

lemma table_setWord (h : pgdir ≠ f) : (m.setWord f i v).Table pgdir t ↔ m.Table pgdir t := by
  unfold Table
  rw [word_setWord_of_ne h]

lemma Directory.setWord (hd : m.Directory pgdir) (h : pgdir ≠ f) : (m.setWord f i v).Directory pgdir := by
  refine ⟨?_, ?_⟩
  · rw [word_setWord_of_ne h]
    exact hd.apart
  · rw [table_setWord h]
    exact hd.self

lemma Spare.setWord (hs : m.Spare pgdir) (h : pgdir ≠ f) : (m.setWord f i v).Spare pgdir :=
  ⟨hs.nodup, hs.aligned, hs.directory, fun g hg => by rw [table_setWord h]; exact hs.table g hg⟩

/-! ### walkpgdir -/

/-- What a call leaves alone: pages that are not the directory, not one of its tables and not new, and the
free list but for its front. -/
structure Keeps (m : Ram) (pgdir : ℕ) (m' : Ram) : Prop where
  free : m'.free <:+ m.free
  table : ∀ t, m.Table pgdir t → m'.Table pgdir t
  new : ∀ t, m'.Table pgdir t → m.Table pgdir t ∨ t ∈ m.free ∧ t ∉ m'.free
  word : ∀ f, f ≠ pgdir → ¬ m'.Table pgdir f → m'.word f = m.word f
  bytes : ∀ f, ¬ m'.Table pgdir f → m'.bytes f = m.bytes f

lemma Keeps.refl (m : Ram) (pgdir : ℕ) : Keeps m pgdir m :=
  ⟨List.suffix_rfl, fun _ h => h, fun _ h => Or.inl h, fun _ _ _ => rfl, fun _ _ => rfl⟩

lemma Keeps.trans {m₁ m₂ : Ram} (h : Keeps m pgdir m₁) (h' : Keeps m₁ pgdir m₂) : Keeps m pgdir m₂ := by
  refine ⟨h'.free.trans h.free, fun t ht => h'.table t (h.table t ht), fun t ht => ?_, fun f hf ht => ?_, fun f ht => ?_⟩
  · rcases h'.new t ht with ht | ⟨hin, hout⟩
    · exact (h.new t ht).imp_right fun hn => ⟨hn.1, fun hin => hn.2 (h'.free.subset hin)⟩
    · exact Or.inr ⟨h.free.subset hin, hout⟩
  · rw [h'.word f hf ht, h.word f hf fun hn => ht (h'.table f hn)]
  · rw [h'.bytes f ht, h.bytes f fun hn => ht (h'.table f hn)]

lemma Keeps.setWord (ht : m.Table pgdir t) (hd : m.Directory pgdir) : Keeps m pgdir (m.setWord t i v) := by
  have hne : pgdir ≠ t := fun h => hd.self (h ▸ ht)
  refine ⟨List.suffix_rfl, fun u hu => (table_setWord hne).2 hu, fun u hu => Or.inl ((table_setWord hne).1 hu),
    fun f hf hft => ?_, fun _ _ => rfl⟩
  apply word_setWord_of_ne
  rintro rfl
  exact hft ((table_setWord hne).2 ht)

/-- With `alloc`, there is a page table afterwards unless `kalloc` fails, and no entry has changed. -/
lemma walkpgdir_spec (hd : m.Directory pgdir) (hs : m.Spare pgdir) (va : ℕ) :
    (m.free = [] ∧ m.walkpgdir pgdir va true = (m, none)) ∨
      ∃ m', m.walkpgdir pgdir va true = (m', some (PTE_ADDR (m'.word pgdir (PDX va)), PTX va)) ∧
        m'.Directory pgdir ∧ m'.Spare pgdir ∧ Present (m'.word pgdir (PDX va)) ∧ Keeps m pgdir m' ∧
        m.free.length ≤ m'.free.length + (if Present (m.word pgdir (PDX va)) then 0 else 1) ∧
        ∀ x, m'.pte pgdir x = m.pte pgdir x := by
  by_cases hp : Present (m.word pgdir (PDX va))
  · right
    refine ⟨m, ?_, hd, hs, hp, Keeps.refl m pgdir, Nat.le_add_right _ _, fun _ => rfl⟩
    simp [walkpgdir, hp]
  cases hfree : m.free with
  | nil =>
    left
    simp [walkpgdir, hp, kalloc, hfree]
  | cons g rest =>
    right
    have hg : g ∈ m.free := by simp [hfree]
    have hne : pgdir ≠ g := fun h => hs.directory (h ▸ hg)
    have haligned := hs.aligned g hg
    have hnot := hs.table g hg
    set w := g ||| PTE_P ||| PTE_W ||| PTE_U with hw
    have hwg : w = g + 7 := by
      rw [hw, Nat.or_assoc, Nat.or_assoc]
      exact or_flags haligned (by decide)
    have hpresent : Present w := by
      rw [hwg]
      unfold Present
      omega
    have haddr : PTE_ADDR w = g := by
      rw [hwg]
      unfold PTE_ADDR
      omega
    set m₁ : Ram := (({ m with free := rest } : Ram).clear g).setWord pgdir (PDX va) w with hm₁
    have hdir (j : ℕ) : m₁.word pgdir j = if j = PDX va then w else m.word pgdir j := by
      simp [hm₁, setWord, clear, hne]
    have hword {f : ℕ} (hf : f ≠ pgdir) (hfg : f ≠ g) : m₁.word f = m.word f := by
      ext j
      simp [hm₁, setWord, clear, hf, hfg]
    have hzero (j : ℕ) : m₁.word g j = 0 := by simp [hm₁, setWord, clear, hne.symm]
    have htable (t : ℕ) : m₁.Table pgdir t ↔ t = g ∨ m.Table pgdir t := by
      constructor
      · rintro ⟨j, hj, hpj, rfl⟩
        rw [hdir] at hpj ⊢
        split_ifs at hpj ⊢
        · exact Or.inl haddr
        · exact Or.inr ⟨j, hj, hpj, rfl⟩
      · rintro (rfl | ⟨j, hj, hpj, rfl⟩)
        · exact ⟨PDX va, pdx_lt, by rw [hdir, if_pos rfl]; exact hpresent, by rw [hdir, if_pos rfl, haddr]⟩
        · have hjv : j ≠ PDX va := by
            rintro rfl
            exact hp hpj
          exact ⟨j, hj, by rwa [hdir, if_neg hjv], by rw [hdir, if_neg hjv]⟩
    have hnodup := hs.nodup
    rw [hfree, List.nodup_cons] at hnodup
    have hrest {f : ℕ} (hf : f ∈ rest) : f ∈ m.free := by simp [hfree, hf]
    refine ⟨m₁, ?_, ⟨fun j hj k hk hpj hpk heq => ?_, ?_⟩, ⟨hnodup.2, fun f hf => hs.aligned f (hrest hf),
      fun h => hs.directory (hrest h), fun f hf => ?_⟩, ?_, ⟨?_, fun t ht => (htable t).2 (Or.inr ht), fun t ht => ?_,
      fun f hf hft => ?_, fun f hft => ?_⟩, ?_, fun x => ?_⟩
    · rw [hdir, if_pos rfl, haddr]
      simp [walkpgdir, hp, kalloc, hfree, hm₁, hw]
    · rw [hdir] at hpj hpk heq
      rw [hdir] at heq
      split_ifs at hpj hpk heq with h1 h2 h2
      · omega
      · exact absurd ⟨k, hk, hpk, by rw [← heq, haddr]⟩ hnot
      · exact absurd ⟨j, hj, hpj, by rw [heq, haddr]⟩ hnot
      · exact hd.apart j hj k hk hpj hpk heq
    · rw [htable]
      exact fun h => h.elim hne hd.self
    · rw [htable]
      rintro (rfl | h)
      · exact hnodup.1 hf
      · exact hs.table f (hrest hf) h
    · rw [hdir, if_pos rfl]
      exact hpresent
    · rw [hfree]
      exact List.suffix_cons g rest
    · rcases (htable t).1 ht with rfl | ht
      · exact Or.inr ⟨hg, hnodup.1⟩
      · exact Or.inl ht
    · apply hword hf
      rintro rfl
      exact hft ((htable f).2 (Or.inl rfl))
    · have hfg : f ≠ g := by
        rintro rfl
        exact hft ((htable f).2 (Or.inl rfl))
      simp [hm₁, setWord, clear, hfg]
    · rw [if_neg hp]
      exact le_rfl
    · unfold pte
      rw [hdir]
      by_cases hx : PDX x = PDX va
      · rw [if_pos hx, if_pos hpresent, haddr, hzero, hx, if_neg hp]
      · rw [if_neg hx]
        by_cases hpx : Present (m.word pgdir (PDX x))
        · have ht := table_pdx hpx
          rw [if_pos hpx, if_pos hpx, hword (fun h => hd.self (by rwa [h] at ht)) (fun h => hnot (by rwa [h] at ht))]
        · rw [if_neg hpx, if_neg hpx]

/-! ### mappages -/

/-- The pages from `first` to `last`, as numbers, with the physical addresses from `pa` on. -/
def Maps (m : Ram) (pgdir first count pa perm : ℕ) (m' : Ram) : Prop :=
  ∀ x < 4294967296, m'.pte pgdir x =
    if first ≤ x / 4096 ∧ x / 4096 < first + count then (pa + (x / 4096 - first) * 4096) % 4294967296 ||| perm ||| PTE_P
    else m.pte pgdir x

lemma Maps.zero {first : ℕ} : Maps m pgdir first 0 pa perm m := by
  intro x _
  rw [if_neg (by omega)]

/-- A page is mapped, and then those behind it. -/
lemma Maps.cons {m₂ : Ram} {p k : ℕ} (hp : p < 1048576) (hpa : pa < 4294967296)
    (h₂ : ∀ x, m₂.pte pgdir x =
      if PDX x = PDX (p * 4096) ∧ PTX x = PTX (p * 4096) then pa ||| perm ||| PTE_P else m.pte pgdir x)
    (h : Maps m₂ pgdir (p + 1) k ((pa + PGSIZE) % 4294967296) perm m') : Maps m pgdir p (k + 1) pa perm m' := by
  intro x hx
  have hpage : (PDX x = PDX (p * 4096) ∧ PTX x = PTX (p * 4096)) ↔ x / 4096 = p := by
    rw [same_page hx (by omega)]
    omega
  rw [h x hx, h₂]
  simp only [hpage]
  by_cases hxp : x / 4096 = p
  · rw [if_neg (by omega), if_pos hxp, if_pos (by omega), hxp, Nat.sub_self, Nat.zero_mul, Nat.add_zero,
      Nat.mod_eq_of_lt hpa]
  · rw [if_neg hxp]
    by_cases hin : p + 1 ≤ x / 4096 ∧ x / 4096 < p + 1 + k
    · have haddr : ((pa + PGSIZE) % 4294967296 + (x / 4096 - (p + 1)) * 4096) % 4294967296 =
          (pa + (x / 4096 - p) * 4096) % 4294967296 := by
        unfold PGSIZE
        omega
      rw [if_pos hin, if_pos (by omega), haddr]
    · rw [if_neg hin, if_neg (by omega)]

/-- One pass of the loop: `kalloc` fails, or the entry of `a` can be set. -/
lemma pass (hd : m.Directory pgdir) (hs : m.Spare pgdir) (hfree : ¬ Present (m.pte pgdir a)) :
    (m.free = [] ∧ m.walkpgdir pgdir a true = (m, none)) ∨
      ∃ m₁ t i, m.walkpgdir pgdir a true = (m₁, some (t, i)) ∧ ¬ Present (m₁.word t i) ∧
        ∀ v, (m₁.setWord t i v).Directory pgdir ∧ (m₁.setWord t i v).Spare pgdir ∧ Keeps m pgdir (m₁.setWord t i v) ∧
          m.free.length ≤ (m₁.setWord t i v).free.length + (if Present (m.word pgdir (PDX a)) then 0 else 1) ∧
          Present ((m₁.setWord t i v).word pgdir (PDX a)) ∧ ∀ x, (m₁.setWord t i v).pte pgdir x = if PDX x = PDX a ∧ PTX x = PTX a then v else m.pte pgdir x := by
  rcases walkpgdir_spec hd hs a with h | ⟨m₁, hw, hd₁, hs₁, hp₁, hk, hlen, hpte⟩
  · exact Or.inl h
  · right
    have ht := table_pdx hp₁
    have hne : pgdir ≠ PTE_ADDR (m₁.word pgdir (PDX a)) := by
      intro h
      rw [← h] at ht
      exact hd₁.self ht
    refine ⟨m₁, _, _, hw, ?_, fun v => ⟨hd₁.setWord hne, hs₁.setWord hne, hk.trans (.setWord ht hd₁), hlen,
      by rwa [word_setWord_of_ne hne], fun x => ?_⟩⟩
    · have h := hpte a
      rw [pte, if_pos hp₁] at h
      rwa [h]
    · rw [pte_setWord hd₁ hp₁, hpte]

/-- A pass at an address that is mapped panics. -/
lemma mapLoop_remap {fuel last : ℕ} (h : Present (m.pte pgdir a)) : mapLoop pgdir last perm fuel a pa m = none := by
  cases fuel with
  | zero => rfl
  | succ fuel =>
    have hp : Present (m.word pgdir (PDX a)) := by
      by_contra hp
      rw [pte, if_neg hp] at h
      exact absurd h (by decide)
    have hentry : m.word (PTE_ADDR (m.word pgdir (PDX a))) (PTX a) = m.pte pgdir a := by rw [pte, if_pos hp]
    have hwalk : m.walkpgdir pgdir a true = (m, some (PTE_ADDR (m.word pgdir (PDX a)), PTX a)) := by simp [walkpgdir, hp]
    rw [mapLoop, hwalk]
    dsimp only
    rw [hentry, if_pos h]

/-- However the loop returns, what was mapped stays as it was. -/
lemma mapLoop_keeps {fuel last : ℕ} {r : ℤ} (hd : m.Directory pgdir) (hs : m.Spare pgdir)
    (h : mapLoop pgdir last perm fuel a pa m = some (m', r)) :
    m'.Directory pgdir ∧ m'.Spare pgdir ∧ Keeps m pgdir m' ∧
      ∀ x, Present (m.pte pgdir x) → m'.pte pgdir x = m.pte pgdir x := by
  induction fuel generalizing a pa m with
  | zero => cases h
  | succ fuel ih =>
    by_cases hp : Present (m.pte pgdir a)
    · rw [mapLoop_remap hp] at h
      cases h
    rcases pass hd hs hp with ⟨-, hw⟩ | ⟨m₁, t, i, hw, hnot, hset⟩
    · rw [mapLoop, hw] at h
      cases h
      exact ⟨hd, hs, Keeps.refl _ _, fun _ _ => rfl⟩
    · obtain ⟨hd', hs', hk', -, -, hpte⟩ := hset (pa ||| perm ||| PTE_P)
      have hkept : ∀ x, Present (m.pte pgdir x) →
          (m₁.setWord t i (pa ||| perm ||| PTE_P)).pte pgdir x = m.pte pgdir x := by
        intro x hx
        rw [hpte, if_neg]
        intro hax
        have heq : m.pte pgdir x = m.pte pgdir a := by
          unfold pte
          rw [hax.1, hax.2]
        exact hp (heq ▸ hx)
      rw [mapLoop, hw] at h
      dsimp only at h
      rw [if_neg hnot] at h
      split_ifs at h with hlast
      · cases h
        exact ⟨hd', hs', hk', hkept⟩
      · obtain ⟨hd'', hs'', hk'', hkept'⟩ := ih hd' hs' h
        refine ⟨hd'', hs'', hk'.trans hk'', fun x hx => ?_⟩
        rw [hkept' x (by rwa [hkept x hx]), hkept x hx]

/-- The loop from page `p` on, with `n` pages behind it. -/
lemma mapLoop_spec {n p fuel : ℕ} (hd : m.Directory pgdir) (hs : m.Spare pgdir) (hn : n < fuel) (hlast : p + n < 1048576)
    (hfree : ∀ x < 4294967296, p ≤ x / 4096 → x / 4096 ≤ p + n → ¬ Present (m.pte pgdir x)) (hpa : pa < 4294967296) :
    ∃ m' r, mapLoop pgdir ((p + n) * 4096) perm fuel (p * 4096) pa m = some (m', r) ∧
      m'.Directory pgdir ∧ m'.Spare pgdir ∧ Keeps m pgdir m' ∧
      m.free.length ≤ m'.free.length + ((p + n) / 1024 - p / 1024 + if Present (m.word pgdir (p / 1024)) then 0 else 1) ∧
      (r = 0 ∧ Maps m pgdir p (n + 1) pa perm m' ∨
        r = -1 ∧ m'.free = [] ∧ ∃ k ≤ n, Maps m pgdir p k pa perm m') := by
  induction n generalizing p fuel pa m with
  | zero =>
    obtain ⟨fuel, rfl⟩ : ∃ f, fuel = f + 1 := ⟨fuel - 1, by omega⟩
    rcases pass hd hs (hfree (p * 4096) (by omega) (by omega) (by omega)) with ⟨hnone, hw⟩ | ⟨m₁, t, i, hw, hnot, hset⟩
    · exact ⟨m, -1, by simp [mapLoop, hw], hd, hs, Keeps.refl m pgdir, by omega, Or.inr ⟨rfl, hnone, 0, le_rfl, Maps.zero⟩⟩
    · obtain ⟨hd', hs', hk', hlen, -, hpte⟩ := hset (pa ||| perm ||| PTE_P)
      rw [pdx_page (by omega)] at hlen
      refine ⟨_, 0, by simp [mapLoop, hw, hnot], hd', hs', hk', by omega, Or.inl ⟨rfl, ?_⟩⟩
      exact Maps.cons (by omega) hpa hpte Maps.zero
  | succ n ih =>
    obtain ⟨fuel, rfl⟩ : ∃ f, fuel = f + 1 := ⟨fuel - 1, by omega⟩
    rcases pass hd hs (hfree (p * 4096) (by omega) (by omega) (by omega)) with ⟨hnone, hw⟩ | ⟨m₁, t, i, hw, hnot, hset⟩
    · exact ⟨m, -1, by simp [mapLoop, hw], hd, hs, Keeps.refl m pgdir, by omega,
        Or.inr ⟨rfl, hnone, 0, by omega, Maps.zero⟩⟩
    · obtain ⟨hd', hs', hk', hlen, htab, hpte⟩ := hset (pa ||| perm ||| PTE_P)
      have hfree' : ∀ x < 4294967296, p + 1 ≤ x / 4096 → x / 4096 ≤ p + 1 + n →
          ¬ Present ((m₁.setWord t i (pa ||| perm ||| PTE_P)).pte pgdir x) := by
        intro x hx hlo hhi
        rw [hpte, if_neg]
        · exact hfree x hx (by omega) (by omega)
        · rw [same_page hx (by omega)]
          omega
      obtain ⟨m', r, hloop, hd'', hs'', hk'', hlen', hr⟩ := @ih _ ((pa + PGSIZE) % 4294967296) (p + 1) fuel hd' hs'
        (by omega) (by omega) hfree' (Nat.mod_lt _ (by decide))
      have hnext : (p * 4096 + PGSIZE) % 4294967296 = (p + 1) * 4096 := by
        unfold PGSIZE
        omega
      rw [pdx_page (by omega)] at hlen htab
      have hcount : m.free.length ≤ m'.free.length +
          ((p + (n + 1)) / 1024 - p / 1024 + if Present (m.word pgdir (p / 1024)) then 0 else 1) := by
        by_cases hsame : (p + 1) / 1024 = p / 1024
        · rw [hsame, if_pos htab] at hlen'
          omega
        · split_ifs at hlen' <;> omega
      refine ⟨m', r, ?_, hd'', hs'', hk'.trans hk'', hcount, ?_⟩
      · rw [mapLoop, hw]
        dsimp only
        rw [if_neg hnot, if_neg (by omega), hnext, ← hloop, show p + (n + 1) = p + 1 + n by omega]
      · rcases hr with ⟨hr, hm⟩ | ⟨hr, hnil, k, hk, hm⟩
        · exact Or.inl ⟨hr, Maps.cons (by omega) hpa hpte hm⟩
        · exact Or.inr ⟨hr, hnil, k + 1, by omega, Maps.cons (by omega) hpa hpte hm⟩

variable {size : ℕ}

/-- `mappages` of a range of which no page is mapped. -/
lemma mappages_maps (hd : m.Directory pgdir) (hs : m.Spare pgdir) (hsize : 0 < size) (hend : va + size - 1 < 4294967296)
    (hpa : pa < 4294967296)
    (hfree : ∀ x < 4294967296, va / 4096 ≤ x / 4096 → x / 4096 ≤ (va + size - 1) / 4096 → ¬ Present (m.pte pgdir x)) :
    ∃ m' r, m.mappages pgdir va size pa perm = some (m', r) ∧ m'.Directory pgdir ∧ m'.Spare pgdir ∧ Keeps m pgdir m' ∧
      m.free.length ≤ m'.free.length + ((va + size - 1) / 4194304 - va / 4194304 + 1) ∧
      (r = 0 ∧ Maps m pgdir (va / 4096) ((va + size - 1) / 4096 - va / 4096 + 1) pa perm m' ∨
        r = -1 ∧ m'.free = [] ∧ ∃ k ≤ (va + size - 1) / 4096 - va / 4096, Maps m pgdir (va / 4096) k pa perm m') := by
  have hlast : PGROUNDDOWN ((va + size - 1) % 4294967296) = (va / 4096 + ((va + size - 1) / 4096 - va / 4096)) * 4096 := by
    unfold PGROUNDDOWN
    omega
  have hsum : va / 4096 + ((va + size - 1) / 4096 - va / 4096) = (va + size - 1) / 4096 := by omega
  have hle : (va + size - 1) / 4096 / 1024 - va / 4096 / 1024 = (va + size - 1) / 4194304 - va / 4194304 := by
    rw [Nat.div_div_eq_div_mul, Nat.div_div_eq_div_mul]
  have hloop : ∃ m' r, mapLoop pgdir ((va / 4096 + ((va + size - 1) / 4096 - va / 4096)) * 4096) perm 1048576
      (va / 4096 * 4096) pa m = some (m', r) ∧ _ :=
    mapLoop_spec hd hs (by omega) (by omega) (fun x hx hlo hhi => hfree x hx hlo (by omega)) hpa
  obtain ⟨m', r, hcall, hd', hs', hk', hlen, hr⟩ := hloop
  rw [mappages, hlast]
  rw [hsum, hle] at hlen
  refine ⟨m', r, hcall, hd', hs', hk', hlen.trans ?_, hr⟩
  apply Nat.add_le_add_left
  apply Nat.add_le_add_left
  split_ifs
  · exact Nat.zero_le 1
  · exact le_rfl

lemma translate_of_maps {first count x : ℕ} (hperm : perm < 4096) (hpa : pa % 4096 = 0) (hx : x < 4294967296)
    (h : Maps m pgdir first count pa perm m') :
    m'.translate pgdir x = if first ≤ x / 4096 ∧ x / 4096 < first + count then
        some ((pa + (x / 4096 - first) * 4096) % 4294967296 + x % 4096, perm ||| PTE_P)
      else m.translate pgdir x := by
  have hpte := h x hx
  unfold translate
  rw [hpte]
  by_cases hin : first ≤ x / 4096 ∧ x / 4096 < first + count
  · rw [if_pos hin, if_pos hin]
    obtain ⟨hlt, hp⟩ := or_present hperm
    set b := (pa + (x / 4096 - first) * 4096) % 4294967296 with hb
    have hb0 : b % 4096 = 0 := by omega
    have hor : b ||| perm ||| PTE_P = b + (perm ||| PTE_P) := by
      rw [Nat.or_assoc]
      exact or_flags hb0 hlt
    rw [hor]
    have hP : Present (b + (perm ||| PTE_P)) := by
      unfold Present at hp ⊢
      omega
    have haddr : PTE_ADDR (b + (perm ||| PTE_P)) = b := by
      unfold PTE_ADDR
      omega
    rw [if_pos hP, haddr, show (b + (perm ||| PTE_P)) % 4096 = perm ||| PTE_P by omega]
  · rw [if_neg hin, if_neg hin]

/-- **What `mappages` does** where no page of the range is mapped: it maps the whole range and changes no other
address, or `kalloc` fails and it has mapped a prefix of the range. -/
theorem mappages_translate (hd : m.Directory pgdir) (hs : m.Spare pgdir) (hsize : 0 < size)
    (hend : va + size - 1 < 4294967296) (hpa : pa < 4294967296) (haligned : pa % 4096 = 0) (hperm : perm < 4096)
    (hfree : ∀ x < 4294967296, va / 4096 ≤ x / 4096 → x / 4096 ≤ (va + size - 1) / 4096 → m.translate pgdir x = none) :
    ∃ m' r, m.mappages pgdir va size pa perm = some (m', r) ∧ m'.Directory pgdir ∧ m'.Spare pgdir ∧
      ((r = 0 ∧ ∀ x < 4294967296, m'.translate pgdir x =
          if PGROUNDDOWN va ≤ x ∧ x < PGROUNDDOWN (va + size - 1) + PGSIZE then
            some ((pa + (PGROUNDDOWN x - PGROUNDDOWN va)) % 4294967296 + x % 4096, perm ||| PTE_P)
          else m.translate pgdir x) ∨
        (r = -1 ∧ m'.free = [] ∧ ∃ stop, stop % 4096 = 0 ∧ stop ≤ PGROUNDDOWN (va + size - 1) ∧
          ∀ x < 4294967296, m'.translate pgdir x =
            if PGROUNDDOWN va ≤ x ∧ x < stop then
              some ((pa + (PGROUNDDOWN x - PGROUNDDOWN va)) % 4294967296 + x % 4096, perm ||| PTE_P)
            else m.translate pgdir x)) := by
  have hnot : ∀ x < 4294967296, va / 4096 ≤ x / 4096 → x / 4096 ≤ (va + size - 1) / 4096 → ¬ Present (m.pte pgdir x) := by
    intro x hx hlo hhi hp
    have h := hfree x hx hlo hhi
    rw [translate, if_pos hp] at h
    cases h
  have hoff (x : ℕ) : (x / 4096 - va / 4096) * 4096 = PGROUNDDOWN x - PGROUNDDOWN va := by
    unfold PGROUNDDOWN
    omega
  have hmaps : ∃ m' r, m.mappages pgdir va size pa perm = some (m', r) ∧ _ := mappages_maps hd hs hsize hend hpa hnot
  obtain ⟨m', r, hcall, hd', hs', -, -, hr⟩ := hmaps
  refine ⟨m', r, hcall, hd', hs', ?_⟩
  rcases hr with ⟨rfl, hm⟩ | ⟨rfl, hnil, k, hk, hm⟩
  · refine Or.inl ⟨rfl, fun x hx => ?_⟩
    rw [translate_of_maps hperm haligned hx hm, hoff]
    apply if_congr _ rfl rfl
    unfold PGROUNDDOWN PGSIZE
    omega
  · refine Or.inr ⟨rfl, hnil, (va / 4096 + k) * 4096, by omega, ?_, fun x hx => ?_⟩
    · unfold PGROUNDDOWN
      omega
    · rw [translate_of_maps hperm haligned hx hm, hoff]
      apply if_congr _ rfl rfl
      unfold PGROUNDDOWN
      omega

/-- An empty directory at 4096, and one page for a page table. -/
def oneTable : Ram := ⟨fun _ _ => 0, fun _ _ => 0, [8192]⟩

lemma not_present_oneTable : ¬ Present (oneTable.pte 4096 x) := by
  have h : oneTable.pte 4096 x = 0 := by
    unfold pte
    split_ifs <;> rfl
  rw [h]
  decide

lemma not_table_oneTable : ¬ oneTable.Table 4096 t := by
  rintro ⟨i, -, hp, -⟩
  exact absurd hp (by change ¬ Present 0; decide)

lemma directory_oneTable : oneTable.Directory 4096 :=
  ⟨fun _ _ _ _ hp => absurd hp (by change ¬ Present 0; decide), not_table_oneTable⟩

lemma spare_oneTable : oneTable.Spare 4096 :=
  ⟨by decide, by decide, by decide, fun _ _ => not_table_oneTable⟩

/-- The last page of the address space. -/
theorem mappages_translate_last : ∃ m' r, oneTable.mappages 4096 0xFFFFF000 4096 0xFEC00000 PTE_W = some (m', r) ∧
    m'.Directory 4096 ∧ m'.Spare 4096 := by
  have h : ∃ m' r, oneTable.mappages 4096 0xFFFFF000 4096 0xFEC00000 PTE_W = some (m', r) ∧ _ :=
    mappages_translate directory_oneTable spare_oneTable (by decide) (by decide) (by decide) (by decide) (by decide)
      fun x _ _ _ => by rw [translate, if_neg not_present_oneTable]
  obtain ⟨m', r, hcall, hd, hs, -⟩ := h
  exact ⟨m', r, hcall, hd, hs⟩

end Ram

end Memory

end Os132

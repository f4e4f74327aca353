import Os132.Memory.Dealloc

/-!
# What `copyuvm` copies

`copyuvm` gives every page of the parent below `sz` a page of the child with the same contents, from the pages
that `kalloc` has to give, so that no page is shared. It maps each of them with `PTE_W | PTE_U`: the child has
the parent's access rights exactly if the parent could read and write all of these pages, which is never so for
a process that `exec` has given a guard page.
-/

namespace Os132

namespace Memory

def EXTMEM : ℕ := 0x100000
def DEVSPACE : ℕ := 0xFE000000
def KERNLINK : ℕ := KERNBASE + EXTMEM

/-- `struct kmap`: `virt`, `phys_start`, `phys_end`, `perm`. -/
structure Kmap where
  virt : ℕ
  phys_start : ℕ
  phys_end : ℕ
  perm : ℕ

/-- `phys_end - phys_start` -/
def Kmap.size (k : Kmap) : ℕ := (k.phys_end + 4294967296 - k.phys_start) % 4294967296

/-- The kernel's mappings; `data` is the address of the kernel's data. -/
def kmap (data : ℕ) : List Kmap :=
  [⟨KERNBASE, 0, EXTMEM, PTE_W⟩, ⟨KERNLINK, KERNLINK - KERNBASE, data - KERNBASE, 0⟩,
    ⟨data, data - KERNBASE, PHYSTOP, PTE_W⟩, ⟨DEVSPACE, DEVSPACE, 0, PTE_W⟩]

namespace Ram

/-- The loop of `setupkvm`; 0 if a mapping fails. -/
def setupLoop (pgdir : ℕ) : List Kmap → Ram → Option (Ram × Option ℕ)
  | [], m => some (m, some pgdir)
  | k :: ks, m =>
    (m.mappages pgdir k.virt k.size k.phys_start k.perm).bind fun r =>
      if r.2 < 0 then some (r.1, none) else setupLoop pgdir ks r.1

def setupkvm (data : ℕ) (m : Ram) : Option (Ram × Option ℕ) :=
  match m.kalloc with
  | none => some (m, none)
  | some (pgdir, m) => setupLoop pgdir (kmap data) (m.clear pgdir)

/-- The loop of `freevm` over the page tables, with `n` entries to go. -/
def freeTables (lo pgdir : ℕ) : ℕ → ℕ → Ram → Option Ram
  | 0, _, m => some m
  | n + 1, i, m =>
    if Present (m.word pgdir i) then
      (m.kfree lo (PTE_ADDR (m.word pgdir i))).bind fun m => freeTables lo pgdir n (i + 1) m
    else freeTables lo pgdir n (i + 1) m

def freevm (lo : ℕ) (m : Ram) (pgdir : ℕ) : Option Ram :=
  if pgdir = 0 then none
  else (m.deallocuvm lo pgdir KERNBASE 0).bind fun r => (freeTables lo pgdir 1024 0 r.1).bind fun m => m.kfree lo pgdir

/-- `memmove(mem, p2v(pa), PGSIZE)` -/
def copyPage (m : Ram) (mem pa : ℕ) : Ram :=
  { m with
    word := fun f => if f = mem then m.word pa else m.word f
    bytes := fun f => if f = mem then m.bytes pa else m.bytes f }

/-- The loop of `copyuvm`. -/
def copyLoop (lo pgdir d sz : ℕ) : ℕ → ℕ → Ram → Option (Ram × Option ℕ)
  | 0, _, _ => none
  | fuel + 1, i, m =>
    if i < sz then
      match (m.walkpgdir pgdir i false).2 with
      | none => none
      | some (pgtab, j) =>
        let pte := m.word pgtab j
        if ¬ Present pte then none
        else
          match m.kalloc with
          | none => (m.freevm lo d).map fun m => (m, none)
          | some (mem, m) =>
            ((m.copyPage mem (PTE_ADDR pte)).mappages d i PGSIZE mem (PTE_W ||| PTE_U)).bind fun r =>
              if r.2 < 0 then (r.1.freevm lo d).map fun m => (m, none)
              else copyLoop lo pgdir d sz fuel ((i + PGSIZE) % 4294967296) r.1
    else some (m, some d)

def copyuvm (lo data : ℕ) (m : Ram) (pgdir sz : ℕ) : Option (Ram × Option ℕ) :=
  (setupkvm data m).bind fun r =>
    match r.2 with
    | none => some (r.1, none)
    | some d => copyLoop lo pgdir d sz 1048576 0 r.1

variable {lo data pgdir d sz q x y mem pa fuel : ℕ} {m m₀ m₁ m' : Ram}

/-! ### The new directory -/

/-- A directory `d` made of pages that were free in `m₀`, while nothing else has changed since. -/
structure Child (m₀ : Ram) (d : ℕ) (m : Ram) : Prop where
  directory : m.Directory d
  spare : m.Spare d
  free : m.free <:+ m₀.free
  self : d ∈ m₀.free
  table : ∀ t, m.Table d t → t ∈ m₀.free ∧ t ∉ m.free
  word : ∀ f, f ∉ m₀.free → m.word f = m₀.word f
  bytes : ∀ f, f ∉ m₀.free → m.bytes f = m₀.bytes f

lemma Child.keeps (h : Child m₀ d m) (hd : m'.Directory d) (hs : m'.Spare d) (hk : Keeps m d m') : Child m₀ d m' := by
  have htable : ∀ t, m'.Table d t → t ∈ m₀.free ∧ t ∉ m'.free := by
    intro t ht
    rcases hk.new t ht with ht | ⟨hin, hout⟩
    · obtain ⟨h1, h2⟩ := h.table t ht
      exact ⟨h1, fun h3 => h2 (hk.free.subset h3)⟩
    · exact ⟨h.free.subset hin, hout⟩
  refine ⟨hd, hs, hk.free.trans h.free, h.self, htable, fun f hf => ?_, fun f hf => ?_⟩
  · rw [hk.word f (fun hfd => hf (hfd ▸ h.self)) fun ht => hf (htable f ht).1, h.word f hf]
  · rw [hk.bytes f fun ht => hf (htable f ht).1, h.bytes f hf]

lemma setupLoop_child {ks : List Kmap} (h : Child m₀ d m) (hcall : setupLoop d ks m = some (m', some y)) :
    Child m₀ d m' ∧ y = d ∧ ∀ x, Present (m.pte d x) → m'.pte d x = m.pte d x := by
  induction ks generalizing m with
  | nil =>
    cases hcall
    exact ⟨h, rfl, fun _ _ => rfl⟩
  | cons k ks ih =>
    rw [setupLoop, Option.bind_eq_some_iff] at hcall
    obtain ⟨⟨m₁, r⟩, hmap, hcall⟩ := hcall
    dsimp only at hcall
    split_ifs at hcall
    · cases hcall
    · obtain ⟨hd, hs, hk, hkept⟩ := mapLoop_keeps h.directory h.spare hmap
      obtain ⟨hchild, hy, hkept'⟩ := ih (h.keeps hd hs hk) hcall
      refine ⟨hchild, hy, fun x hx => ?_⟩
      rw [hkept' x (by rwa [hkept x hx]), hkept x hx]

lemma not_present_zero : ¬ Present 0 := by decide

/-- A new page as a directory. -/
lemma child_clear {rest : List ℕ} (hfree : m₀.free = d :: rest) (hnodup : m₀.free.Nodup)
    (haligned : ∀ f ∈ m₀.free, f % 4096 = 0) :
    Child m₀ d (({ m₀ with free := rest } : Ram).clear d) ∧
      ∀ x, (({ m₀ with free := rest } : Ram).clear d).pte d x = 0 := by
  set m : Ram := ({ m₀ with free := rest } : Ram).clear d with hm
  have hzero (i : ℕ) : m.word d i = 0 := by simp [hm, clear]
  have hno : ∀ t, ¬ m.Table d t := by
    rintro t ⟨i, -, hp, -⟩
    rw [hzero] at hp
    exact not_present_zero hp
  have hself : d ∈ m₀.free := by simp [hfree]
  have hne {f : ℕ} (hf : f ∉ m₀.free) : f ≠ d := fun h => hf (h ▸ hself)
  rw [hfree, List.nodup_cons] at hnodup
  refine ⟨⟨⟨fun i _ j _ hp => ?_, hno d⟩, ⟨hnodup.2, fun f hf => haligned f ?_, hnodup.1, fun f _ => hno f⟩, ?_, hself,
    fun t ht => absurd ht (hno t), fun f hf => ?_, fun f hf => ?_⟩, fun x => ?_⟩
  · rw [hzero] at hp
    exact absurd hp not_present_zero
  · rw [hfree]
    exact List.mem_cons_of_mem _ hf
  · rw [hfree]
    exact List.suffix_cons d rest
  · simp [hm, clear, hne hf]
  · simp [hm, clear, hne hf]
  · rw [pte, hzero, if_neg not_present_zero]

/-- The new directory maps the kernel. -/
lemma setupkvm_child (hnodup : m₀.free.Nodup) (haligned : ∀ f ∈ m₀.free, f % 4096 = 0)
    (hcall : setupkvm data m₀ = some (m, some d)) : Child m₀ d m ∧ Present (m.pte d KERNBASE) := by
  cases hfree : m₀.free with
  | nil => simp [setupkvm, kalloc, hfree] at hcall
  | cons g rest =>
    simp only [setupkvm, kalloc, hfree] at hcall
    obtain ⟨hchild, hzero⟩ := child_clear hfree hnodup haligned
    have hd : d = g := (setupLoop_child hchild hcall).2.1
    subst hd
    refine ⟨(setupLoop_child hchild hcall).1, ?_⟩
    set m₁ : Ram := ({ m₀ with free := rest } : Ram).clear d
    rw [kmap, setupLoop, Option.bind_eq_some_iff] at hcall
    obtain ⟨⟨m₂, r⟩, hmap, hcall⟩ := hcall
    dsimp only at hcall
    split_ifs at hcall with hr
    · cases hcall
    obtain ⟨hd₂, hs₂, hk₂, -⟩ := mapLoop_keeps hchild.directory hchild.spare hmap
    have hfirst : ∃ m' r', m₁.mappages d KERNBASE EXTMEM 0 PTE_W = some (m', r') ∧ _ :=
      mappages_maps hchild.directory hchild.spare (by decide) (by decide) (by decide)
        fun x _ _ _ => by rw [hzero]; exact not_present_zero
    obtain ⟨m', r', hmap', -, -, -, -, hres⟩ := hfirst
    have heq : some (m', r') = some (m₂, r) := by rw [← hmap', ← hmap]; rfl
    cases heq
    rcases hres with ⟨-, hm⟩ | ⟨rfl, -⟩
    · have hb := hm KERNBASE (by decide)
      rw [if_pos (by decide)] at hb
      have hpres : Present (m₂.pte d KERNBASE) := by
        rw [hb]
        decide
      rw [(setupLoop_child (hchild.keeps hd₂ hs₂ hk₂) hcall).2.2 _ hpres]
      exact hpres
    · omega

/-! ### One page -/

/-- An address space whose page directory, page tables and user pages are not free. -/
structure Parent (m₀ : Ram) (pgdir : ℕ) : Prop where
  self : pgdir ∉ m₀.free
  table : ∀ t, m₀.Table pgdir t → t ∉ m₀.free
  page : ∀ x < KERNBASE, Present (m₀.pte pgdir x) → PTE_ADDR (m₀.pte pgdir x) ∉ m₀.free

/-- The pages that `kalloc` has to give. -/
structure FreeList (m₀ : Ram) : Prop where
  nodup : m₀.free.Nodup
  aligned : ∀ f ∈ m₀.free, f % 4096 = 0
  below : ∀ f ∈ m₀.free, f < 4294967296

/-- The page of the child for the page of `x`. -/
structure CopyOf (m₀ : Ram) (pgdir d : ℕ) (m : Ram) (x mem : ℕ) : Prop where
  was_free : mem ∈ m₀.free
  taken : mem ∉ m.free
  not_table : ¬ m.Table d mem
  not_self : mem ≠ d
  entry : m.pte d x = mem ||| (PTE_W ||| PTE_U) ||| PTE_P
  bytes : m.bytes mem = m₀.bytes (PTE_ADDR (m₀.pte pgdir x))
  present : Present (m₀.pte pgdir x)

/-- The loop of `copyuvm` in front of page `q`. -/
structure Copying (m₀ : Ram) (pgdir d q : ℕ) (m : Ram) : Prop where
  child : Child m₀ d m
  kernel : Present (m.pte d KERNBASE)
  pages : ∀ x < 4294967296, x / 4096 < q → ∃ mem, CopyOf m₀ pgdir d m x mem
  apart : ∀ x < 4294967296, ∀ y < 4294967296, x / 4096 < q → y / 4096 < q →
    PTE_ADDR (m.pte d x) = PTE_ADDR (m.pte d y) → x / 4096 = y / 4096

lemma Child.parent_pte (h : Child m₀ d m) (hp : Parent m₀ pgdir) : m.pte pgdir x = m₀.pte pgdir x := by
  unfold pte
  rw [h.word _ hp.self]
  by_cases hpx : Present (m₀.word pgdir (PDX x))
  · rw [if_pos hpx, if_pos hpx, h.word _ (hp.table _ (table_pdx hpx))]
  · rw [if_neg hpx, if_neg hpx]

lemma entry_flags (hmem : mem % 4096 = 0) :
    PTE_ADDR (mem ||| (PTE_W ||| PTE_U) ||| PTE_P) = mem ∧ Present (mem ||| (PTE_W ||| PTE_U) ||| PTE_P) ∧
      Writable (mem ||| (PTE_W ||| PTE_U) ||| PTE_P) ∧ User (mem ||| (PTE_W ||| PTE_U) ||| PTE_P) := by
  have h : mem ||| (PTE_W ||| PTE_U) ||| PTE_P = mem + 7 := by
    rw [Nat.or_assoc]
    exact or_flags hmem (by decide)
  rw [h]
  unfold PTE_ADDR Present Writable User
  omega

/-- A page is taken and the parent's page copied to it. -/
lemma Child.copyPage {rest : List ℕ} (h : Child m₀ d m) (hfree : m.free = mem :: rest) :
    Child m₀ d (({ m with free := rest } : Ram).copyPage mem pa) ∧
      (∀ x, (({ m with free := rest } : Ram).copyPage mem pa).pte d x = m.pte d x) ∧
      (∀ t, (({ m with free := rest } : Ram).copyPage mem pa).Table d t ↔ m.Table d t) ∧
      mem ∉ rest ∧ mem ≠ d ∧ ¬ m.Table d mem := by
  set m₁ : Ram := ({ m with free := rest } : Ram).copyPage mem pa with hm₁
  have hmem : mem ∈ m.free := by simp [hfree]
  have hd : mem ≠ d := fun h' => h.spare.directory (h' ▸ hmem)
  have ht : ¬ m.Table d mem := h.spare.table mem hmem
  have hdir : m₁.word d = m.word d := by simp [hm₁, Ram.copyPage, hd.symm]
  have htable (t : ℕ) : m₁.Table d t ↔ m.Table d t := by
    unfold Table
    rw [hdir]
  have hnodup := h.spare.nodup
  rw [hfree, List.nodup_cons] at hnodup
  have hrest {f : ℕ} (hf : f ∈ rest) : f ∈ m.free := by
    rw [hfree]
    exact List.mem_cons_of_mem _ hf
  have hsuffix : rest <:+ m.free := by
    rw [hfree]
    exact List.suffix_cons mem rest
  have hne {f : ℕ} (hf : f ∉ m₀.free) : f ≠ mem := fun h' => hf (h' ▸ h.free.subset hmem)
  refine ⟨⟨⟨?_, ?_⟩, ⟨hnodup.2, fun f hf => h.spare.aligned f (hrest hf), fun hin => h.spare.directory (hrest hin),
    fun f hf => ?_⟩, hsuffix.trans h.free, h.self, fun t hin => ?_, fun f hf => ?_, fun f hf => ?_⟩, fun x => ?_, htable,
    hnodup.1, hd, ht⟩
  · rw [hdir]
    exact h.directory.apart
  · rw [htable]
    exact h.directory.self
  · rw [htable]
    exact h.spare.table f (hrest hf)
  · rw [htable] at hin
    obtain ⟨h1, h2⟩ := h.table t hin
    exact ⟨h1, fun h3 => h2 (hrest h3)⟩
  · simp [hm₁, Ram.copyPage, hne hf, h.word f hf]
  · simp [hm₁, Ram.copyPage, hne hf, h.bytes f hf]
  · unfold pte
    rw [hdir]
    by_cases hx : Present (m.word d (PDX x))
    · have hxt : PTE_ADDR (m.word d (PDX x)) ≠ mem := by
        rintro heq
        have hin := table_pdx hx
        rw [heq] at hin
        exact ht hin
      rw [if_pos hx, if_pos hx]
      simp [hm₁, Ram.copyPage, hxt]
    · rw [if_neg hx, if_neg hx]

/-- Mapping the copied page is a pass of the loop. -/
lemma Copying.pass (h : Copying m₀ pgdir d q m) (hp : Parent m₀ pgdir) (hl : FreeList m₀) (hq : q < 524288)
    (hpres : Present (m.pte pgdir (q * 4096))) {rest : List ℕ} (hfree : m.free = mem :: rest) {m₂ : Ram} {r : ℤ}
    (hmap : (({ m with free := rest } : Ram).copyPage mem (PTE_ADDR (m.pte pgdir (q * 4096)))).mappages d (q * 4096) PGSIZE mem
      (PTE_W ||| PTE_U) = some (m₂, r)) (hr : ¬ r < 0) : Copying m₀ pgdir d (q + 1) m₂ ∧
      m.free.length ≤ m₂.free.length + 2 ∧ ∀ x < 4294967296, x / 4096 ≠ q → m₂.pte d x = m.pte d x := by
  obtain ⟨hchild₁, hpte₁, htable₁, hrest, hmd, hmt⟩ :
      Child m₀ d (({ m with free := rest } : Ram).copyPage mem (PTE_ADDR (m.pte pgdir (q * 4096)))) ∧ _ :=
    h.child.copyPage hfree
  set m₁ : Ram := ({ m with free := rest } : Ram).copyPage mem (PTE_ADDR (m.pte pgdir (q * 4096))) with hm₁
  have hmem : mem ∈ m.free := by simp [hfree]
  have hmem₀ := h.child.free.subset hmem
  have haligned := hl.aligned mem hmem₀
  obtain ⟨hd₂, hs₂, hk₂, -⟩ := mapLoop_keeps hchild₁.directory hchild₁.spare hmap
  have hround : PGROUNDDOWN (q * 4096) = q * 4096 := by
    unfold PGROUNDDOWN
    omega
  have hnot : ¬ Present (m₁.pte d (q * 4096)) := by
    intro hin
    rw [mappages, hround, mapLoop_remap hin] at hmap
    cases hmap
  have hdiv : q * 4096 / 4096 = q := Nat.mul_div_cancel q (show 0 < 4096 by decide)
  have hlastdiv : (q * 4096 + PGSIZE - 1) / 4096 = q := by
    unfold PGSIZE
    omega
  have hmaps : ∃ m' r', m₁.mappages d (q * 4096) PGSIZE mem (PTE_W ||| PTE_U) = some (m', r') ∧ _ :=
    mappages_maps hchild₁.directory hchild₁.spare (by decide) (by unfold PGSIZE; omega) (hl.below mem hmem₀)
      fun x hx hlo hhi => by
        have hxq : x / 4096 = q * 4096 / 4096 := by
          rw [hdiv] at hlo ⊢
          rw [hlastdiv] at hhi
          omega
        have heq : m₁.pte d x = m₁.pte d (q * 4096) := by rw [← pte_page, hxq, hdiv]
        rwa [heq]
  obtain ⟨m', r', hmap', -, -, -, hlen, hres⟩ := hmaps
  rw [hmap] at hmap'
  cases hmap'
  rcases hres with ⟨-, hm⟩ | ⟨rfl, -⟩
  swap
  · omega
  rw [hdiv, hlastdiv, Nat.sub_self] at hm
  have hnew {x : ℕ} (hx : x < 4294967296) (hxq : x / 4096 = q) : m₂.pte d x = mem ||| (PTE_W ||| PTE_U) ||| PTE_P := by
    rw [hm x hx, if_pos (by omega), hxq, Nat.sub_self, Nat.zero_mul, Nat.add_zero, Nat.mod_eq_of_lt (hl.below mem hmem₀)]
  have hold {x : ℕ} (hx : x < 4294967296) (hxq : x / 4096 ≠ q) : m₂.pte d x = m.pte d x := by
    rw [hm x hx, if_neg (by omega), hpte₁]
  have hnottable {f : ℕ} (hf : ¬ m.Table d f) (hff : f ∉ m.free ∨ f = mem) : ¬ m₂.Table d f := by
    intro hin
    rcases hk₂.new f hin with h' | ⟨h', -⟩
    · exact hf ((htable₁ f).1 h')
    · have h'' : f ∈ rest := h'
      rcases hff with hff | rfl
      · exact hff (by rw [hfree]; exact List.mem_cons_of_mem _ h'')
      · exact hrest h''
  have hsub : ∀ f, f ∈ m₂.free → f ∈ rest := fun f hf => hk₂.free.subset hf
  have hcopy {x : ℕ} (hx : x < 4294967296) (hxq : x / 4096 = q) : CopyOf m₀ pgdir d m₂ x mem := by
    have hxp : m₀.pte pgdir x = m.pte pgdir (q * 4096) := by
      rw [← h.child.parent_pte hp, ← pte_page, hxq]
    refine ⟨hmem₀, fun hin => hrest (hsub _ hin), hnottable hmt (Or.inr rfl), hmd, hnew hx hxq, ?_, by rwa [hxp]⟩
    rw [hk₂.bytes mem (hnottable hmt (Or.inr rfl)), hxp, ← h.child.bytes]
    · simp [hm₁, Ram.copyPage]
    · rw [h.child.parent_pte hp] at hpres ⊢
      refine hp.page _ ?_ hpres
      unfold KERNBASE
      omega
  have hkeep {x : ℕ} (hx : x < 4294967296) (hxq : x / 4096 < q) : ∃ mem', CopyOf m₀ pgdir d m₂ x mem' ∧ mem' ≠ mem := by
    obtain ⟨mem', hc⟩ := h.pages x hx hxq
    have hne : mem' ≠ mem := fun h' => hc.taken (h' ▸ hmem)
    refine ⟨mem', ⟨hc.was_free, fun hin => hc.taken ?_, hnottable hc.not_table (Or.inl hc.taken), hc.not_self, ?_, ?_,
      hc.present⟩, hne⟩
    · rw [hfree]
      exact List.mem_cons_of_mem _ (hsub _ hin)
    · rw [hold hx (by omega), hc.entry]
    · rw [hk₂.bytes mem' (hnottable hc.not_table (Or.inl hc.taken)), ← hc.bytes]
      simp [hm₁, Ram.copyPage, hne]
  have haddr {x mem' : ℕ} (hc : CopyOf m₀ pgdir d m₂ x mem') : PTE_ADDR (m₂.pte d x) = mem' := by
    rw [hc.entry]
    exact (entry_flags (hl.aligned mem' hc.was_free)).1
  have hcount : m.free.length ≤ m₂.free.length + 2 := by
    have hrestlen : m₁.free.length + 1 = m.free.length := by rw [hfree]; rfl
    have hone : (q * 4096 + PGSIZE - 1) / 4194304 = q * 4096 / 4194304 := by
      unfold PGSIZE
      omega
    rw [hone, Nat.sub_self] at hlen
    omega
  refine ⟨⟨hchild₁.keeps hd₂ hs₂ hk₂, ?_, fun x hx hxq => ?_, fun x hx y hy hxq hyq heq => ?_⟩, hcount, fun x hx => hold hx⟩
  · rw [hold (by decide) (by unfold KERNBASE; omega)]
    exact h.kernel
  · by_cases hxp : x / 4096 = q
    · exact ⟨mem, hcopy hx hxp⟩
    · obtain ⟨mem', hc, -⟩ := hkeep hx (by omega)
      exact ⟨mem', hc⟩
  · by_cases hxp : x / 4096 = q
    · by_cases hyp : y / 4096 = q
      · omega
      · obtain ⟨mem', hc, hne⟩ := hkeep hy (by omega)
        rw [haddr (hcopy hx hxp), haddr hc] at heq
        exact absurd heq.symm hne
    · by_cases hyp : y / 4096 = q
      · obtain ⟨mem', hc, hne⟩ := hkeep hx (by omega)
        rw [haddr (hcopy hy hyp), haddr hc] at heq
        exact absurd heq hne
      · rw [hold hx hxp, hold hy hyp] at heq
        exact h.apart x hx y hy (by omega) (by omega) heq

/-! ### The loop -/

/-- A pass that goes on has copied a page. -/
lemma copyLoop_step {i : ℕ} (hlt : i < sz) (hcall : copyLoop lo pgdir d sz (fuel + 1) i m = some (m', some y)) :
    ∃ mem rest m₂ r, Present (m.pte pgdir i) ∧ m.free = mem :: rest ∧
      (({ m with free := rest } : Ram).copyPage mem (PTE_ADDR (m.pte pgdir i))).mappages d i PGSIZE mem (PTE_W ||| PTE_U) =
        some (m₂, r) ∧ ¬ r < 0 ∧
      copyLoop lo pgdir d sz fuel ((i + PGSIZE) % 4294967296) m₂ = some (m', some y) := by
  rw [copyLoop, if_pos hlt] at hcall
  by_cases hp : Present (m.word pgdir (PDX i))
  · have hwalk : (m.walkpgdir pgdir i false).2 = some (PTE_ADDR (m.word pgdir (PDX i)), PTX i) := by simp [walkpgdir, hp]
    have hentry : m.word (PTE_ADDR (m.word pgdir (PDX i))) (PTX i) = m.pte pgdir i := by rw [pte, if_pos hp]
    rw [hwalk] at hcall
    dsimp only at hcall
    rw [hentry] at hcall
    split_ifs at hcall with hpres
    cases hfree : m.free with
    | nil =>
      simp only [kalloc, hfree, Option.map_eq_some_iff] at hcall
      obtain ⟨m₁, -, heq⟩ := hcall
      cases heq
    | cons mem rest =>
      simp only [kalloc, hfree] at hcall
      rw [Option.bind_eq_some_iff] at hcall
      obtain ⟨⟨m₂, r⟩, hmap, hcall⟩ := hcall
      dsimp only at hcall
      split_ifs at hcall with hr
      · rw [Option.map_eq_some_iff] at hcall
        obtain ⟨m₁, -, heq⟩ := hcall
        cases heq
      · exact ⟨mem, rest, m₂, r, hpres, rfl, hmap, hr, hcall⟩
  · have hwalk : (m.walkpgdir pgdir i false).2 = none := by simp [walkpgdir, hp]
    rw [hwalk] at hcall
    cases hcall

/-- If the loop returns a directory, the pages below `sz` are copied; it does not reach the kernel's pages, which
are mapped already. -/
lemma copyLoop_copies (hp : Parent m₀ pgdir) (hl : FreeList m₀) (h : Copying m₀ pgdir d q m) (hq : q ≤ 524288)
    (hcall : copyLoop lo pgdir d sz fuel (q * 4096) m = some (m', some y)) :
    ∃ q', sz ≤ q' * 4096 ∧ q' ≤ 524288 ∧ Copying m₀ pgdir d q' m' ∧ y = d := by
  induction fuel generalizing q m with
  | zero => cases hcall
  | succ fuel ih =>
    by_cases hlt : q * 4096 < sz
    · obtain ⟨mem, rest, m₂, r, hpres, hfree, hmap, hr, hnext⟩ := copyLoop_step hlt hcall
      have hq' : q < 524288 := by
        by_contra hge
        have hqk : q * 4096 = KERNBASE := by
          unfold KERNBASE
          omega
        obtain ⟨-, hpte, -⟩ :
            Child m₀ d (({ m with free := rest } : Ram).copyPage mem (PTE_ADDR (m.pte pgdir (q * 4096)))) ∧ _ :=
          h.child.copyPage hfree
        have hround : PGROUNDDOWN (q * 4096) = q * 4096 := Nat.div_mul_cancel (Nat.dvd_mul_left 4096 q)
        rw [mappages, hround, mapLoop_remap] at hmap
        · cases hmap
        · rw [hpte, hqk]
          exact h.kernel
      have hpass := (h.pass hp hl hq' hpres hfree hmap hr).1
      have hi : (q * 4096 + PGSIZE) % 4294967296 = (q + 1) * 4096 := by
        unfold PGSIZE
        omega
      rw [hi] at hnext
      exact ih hpass (by omega) hnext
    · rw [copyLoop, if_neg hlt] at hcall
      cases hcall
      exact ⟨q, by omega, hq, h, rfl⟩

/-- What the child has below `sz`. -/
structure Image (m₀ : Ram) (pgdir sz d : ℕ) (m' : Ram) : Prop where
  contents : ∀ x < sz, Present (m'.pte d x) ∧ Present (m₀.pte pgdir x) ∧
    m'.bytes (PTE_ADDR (m'.pte d x)) = m₀.bytes (PTE_ADDR (m₀.pte pgdir x))
  apart : ∀ x < sz, ∀ y < sz, PTE_ADDR (m'.pte d x) = PTE_ADDR (m'.pte d y) → x / 4096 = y / 4096
  unshared : ∀ x < sz, ∀ y < KERNBASE, Present (m'.pte pgdir y) → PTE_ADDR (m'.pte d x) ≠ PTE_ADDR (m'.pte pgdir y)
  parent : ∀ y < KERNBASE, m'.pte pgdir y = m₀.pte pgdir y ∧
    (Present (m₀.pte pgdir y) → m'.bytes (PTE_ADDR (m₀.pte pgdir y)) = m₀.bytes (PTE_ADDR (m₀.pte pgdir y)))

/-- The child may access what the parent may. -/
def SameRights (m₀ : Ram) (pgdir sz d : ℕ) (m' : Ram) : Prop :=
  ∀ x < sz, (User (m'.pte d x) ↔ User (m₀.pte pgdir x)) ∧ (Writable (m'.pte d x) ↔ Writable (m₀.pte pgdir x))

lemma copyuvm_copies (hp : Parent m₀ pgdir) (hl : FreeList m₀) (hcall : copyuvm lo data m₀ pgdir sz = some (m', some d)) :
    ∃ q, sz ≤ q * 4096 ∧ q ≤ 524288 ∧ Copying m₀ pgdir d q m' := by
  rw [copyuvm, Option.bind_eq_some_iff] at hcall
  obtain ⟨⟨m, o⟩, hsetup, hcall⟩ := hcall
  cases o with
  | none => cases hcall
  | some d' =>
    obtain ⟨hchild, hkernel⟩ := setupkvm_child hl.nodup hl.aligned hsetup
    have hstart : Copying m₀ pgdir d' 0 m :=
      ⟨hchild, hkernel, fun x _ hx => absurd hx (Nat.not_lt_zero _), fun x _ y _ hx => absurd hx (Nat.not_lt_zero _)⟩
    have hloop : copyLoop lo pgdir d' sz 1048576 (0 * 4096) m = some (m', some d) := by
      rw [Nat.zero_mul]
      exact hcall
    obtain ⟨q, hsz, hq, hcopy, rfl⟩ := copyLoop_copies hp hl hstart (Nat.zero_le _) hloop
    exact ⟨q, hsz, hq, hcopy⟩

/-- The child's pages have `PTE_W` and `PTE_U`. -/
lemma Copying.image (h : Copying m₀ pgdir d q m') (hp : Parent m₀ pgdir) (hl : FreeList m₀) (hsz : sz ≤ q * 4096)
    (hq : q ≤ 524288) :
    Image m₀ pgdir sz d m' ∧ ∀ x < sz, User (m'.pte d x) ∧ Writable (m'.pte d x) := by
  have hbelow {x : ℕ} (hx : x < sz) : x < 4294967296 ∧ x / 4096 < q := by omega
  have hcopy {x : ℕ} (hx : x < sz) : ∃ mem, CopyOf m₀ pgdir d m' x mem ∧ PTE_ADDR (m'.pte d x) = mem := by
    obtain ⟨mem, hc⟩ := h.pages x (hbelow hx).1 (hbelow hx).2
    refine ⟨mem, hc, ?_⟩
    rw [hc.entry]
    exact (entry_flags (hl.aligned mem hc.was_free)).1
  refine ⟨⟨fun x hx => ?_, fun x hx y hy => ?_, fun x hx y hy hpres heq => ?_,
    fun y hy => ⟨h.child.parent_pte hp, fun hpres => ?_⟩⟩,
    fun x hx => ?_⟩
  · obtain ⟨mem, hc, haddr⟩ := hcopy hx
    refine ⟨?_, hc.present, ?_⟩
    · rw [hc.entry]
      exact (entry_flags (hl.aligned mem hc.was_free)).2.1
    · rw [haddr, hc.bytes]
  · exact h.apart x (hbelow hx).1 y (hbelow hy).1 (hbelow hx).2 (hbelow hy).2
  · obtain ⟨mem, hc, haddr⟩ := hcopy hx
    rw [h.child.parent_pte hp] at hpres heq
    apply hp.page y hy hpres
    rw [← heq, haddr]
    exact hc.was_free
  · exact h.child.bytes _ (hp.page y hy hpres)
  · obtain ⟨mem, hc, -⟩ := hcopy hx
    have hflags := entry_flags (hl.aligned mem hc.was_free)
    rw [hc.entry]
    exact ⟨hflags.2.2.2, hflags.2.2.1⟩

/-- **When the child is a copy of the parent**: whenever `copyuvm` succeeds the child has the parent's contents in
pages of its own; it has the parent's rights exactly if the user may read and write all pages of the parent. -/
theorem copyuvm_image_iff (hp : Parent m₀ pgdir) (hl : FreeList m₀)
    (hcall : copyuvm lo data m₀ pgdir sz = some (m', some d)) :
    Image m₀ pgdir sz d m' ∧ SameRights m₀ pgdir sz d m' ↔
      ∀ x < sz, User (m₀.pte pgdir x) ∧ Writable (m₀.pte pgdir x) := by
  obtain ⟨q, hsz, hq, hcopy⟩ := copyuvm_copies hp hl hcall
  obtain ⟨himage, hflags⟩ := hcopy.image hp hl hsz hq
  constructor
  · rintro ⟨-, hsame⟩ x hx
    exact ⟨(hsame x hx).1.1 (hflags x hx).1, (hsame x hx).2.1 (hflags x hx).2⟩
  · intro h
    refine ⟨himage, fun x hx => ⟨?_, ?_⟩⟩
    · exact iff_of_true (hflags x hx).1 (h x hx).1
    · exact iff_of_true (hflags x hx).2 (h x hx).2

/-! ### Enough memory -/

/-- The page tables that mappings may need. -/
def need : List Kmap → ℕ
  | [] => 0
  | k :: ks => (k.virt + k.size - 1) / 4194304 - k.virt / 4194304 + 1 + need ks

/-- The address lies in a page of the mapping. -/
def Kmap.Covers (k : Kmap) (x : ℕ) : Prop := k.virt / 4096 ≤ x / 4096 ∧ x / 4096 ≤ (k.virt + k.size - 1) / 4096

/-- Mappings of different pages succeed if there are enough pages for their tables. -/
lemma setupLoop_succeeds {ks : List Kmap} (h : Child m₀ d m)
    (hfit : ∀ k ∈ ks, 0 < k.size ∧ k.virt + k.size - 1 < 4294967296 ∧ k.phys_start < 4294967296)
    (hclear : ∀ k ∈ ks, ∀ x < 4294967296, Kmap.Covers k x → ¬ Present (m.pte d x))
    (hapart : ks.Pairwise fun k k' => (k.virt + k.size - 1) / 4096 < k'.virt / 4096) (hfree : need ks < m.free.length) :
    ∃ m', setupLoop d ks m = some (m', some d) ∧ m.free.length ≤ m'.free.length + need ks ∧
      ∀ x < 4294967296, (∀ k ∈ ks, ¬ Kmap.Covers k x) → m'.pte d x = m.pte d x := by
  induction ks generalizing m with
  | nil => exact ⟨m, rfl, Nat.le_add_right _ _, fun _ _ _ => rfl⟩
  | cons k ks ih =>
    obtain ⟨hsize, hend, hpa⟩ := hfit k List.mem_cons_self
    rw [List.pairwise_cons] at hapart
    have hmaps : ∃ m' r, m.mappages d k.virt k.size k.phys_start k.perm = some (m', r) ∧ _ :=
      mappages_maps h.directory h.spare hsize hend hpa fun x hx hlo hhi => hclear k List.mem_cons_self x hx ⟨hlo, hhi⟩
    obtain ⟨m₁, r, hmap, hd₁, hs₁, hk₁, hlen, hres⟩ := hmaps
    rw [need] at hfree
    rcases hres with ⟨rfl, hm⟩ | ⟨-, hnil, -⟩
    · have hother {x : ℕ} (hx : x < 4294967296) (hxk : ¬ Kmap.Covers k x) : m₁.pte d x = m.pte d x := by
        rw [hm x hx, if_neg]
        unfold Kmap.Covers at hxk
        omega
      obtain ⟨m', hloop, hlen', hkeep⟩ := ih (h.keeps hd₁ hs₁ hk₁) (fun k' hk' => hfit k' (List.mem_cons_of_mem _ hk'))
        (fun k' hk' x hx hxk => by
          rw [hother hx]
          · exact hclear k' (List.mem_cons_of_mem _ hk') x hx hxk
          · have hlt := hapart.1 k' hk'
            unfold Kmap.Covers at hxk ⊢
            omega) hapart.2 (by omega)
      refine ⟨m', ?_, by rw [need]; omega, fun x hx hxk => ?_⟩
      · rw [setupLoop, hmap]
        exact hloop
      · rw [hkeep x hx fun k' hk' => hxk k' (List.mem_cons_of_mem _ hk'), hother hx (hxk k List.mem_cons_self)]
    · rw [hnil] at hlen
      simp only [List.length_nil] at hlen
      omega

/-- A pass copies a page. -/
lemma copyLoop_go {i : ℕ} {rest : List ℕ} {m₂ : Ram} (hlt : i < sz) (hpres : Present (m.pte pgdir i))
    (hfree : m.free = mem :: rest)
    (hmap : (({ m with free := rest } : Ram).copyPage mem (PTE_ADDR (m.pte pgdir i))).mappages d i PGSIZE mem (PTE_W ||| PTE_U) =
      some (m₂, 0)) :
    copyLoop lo pgdir d sz (fuel + 1) i m = copyLoop lo pgdir d sz fuel ((i + PGSIZE) % 4294967296) m₂ := by
  have hp : Present (m.word pgdir (PDX i)) := by
    by_contra hp
    rw [pte, if_neg hp] at hpres
    exact not_present_zero hpres
  have hwalk : (m.walkpgdir pgdir i false).2 = some (PTE_ADDR (m.word pgdir (PDX i)), PTX i) := by simp [walkpgdir, hp]
  have hentry : m.word (PTE_ADDR (m.word pgdir (PDX i))) (PTX i) = m.pte pgdir i := by rw [pte, if_pos hp]
  rw [copyLoop, if_pos hlt, hwalk]
  dsimp only
  rw [hentry, if_neg (not_not.2 hpres)]
  simp only [kalloc, hfree]
  rw [hmap]
  rfl

/-- The loop succeeds if the parent's pages are there and there are two pages for each of them. -/
lemma copyLoop_succeeds {n : ℕ} (hp : Parent m₀ pgdir) (hl : FreeList m₀) (h : Copying m₀ pgdir d q m)
    (hsz : sz ≤ (q + n) * PGSIZE) (hq : q + n ≤ 524288) (hn : n < fuel) (hpres : ∀ x < sz, Present (m₀.pte pgdir x))
    (hclear : ∀ x < KERNBASE, q ≤ x / 4096 → ¬ Present (m.pte d x)) (hfree : 2 * n < m.free.length) :
    ∃ m', copyLoop lo pgdir d sz fuel (q * 4096) m = some (m', some d) := by
  induction n generalizing q fuel m with
  | zero =>
    obtain ⟨fuel, rfl⟩ : ∃ f, fuel = f + 1 := ⟨fuel - 1, by omega⟩
    have hend : sz ≤ q * 4096 := hsz
    exact ⟨m, by rw [copyLoop, if_neg (by omega)]⟩
  | succ n ih =>
    obtain ⟨fuel, rfl⟩ : ∃ f, fuel = f + 1 := ⟨fuel - 1, by omega⟩
    by_cases hlt : q * 4096 < sz
    swap
    · exact ⟨m, by rw [copyLoop, if_neg hlt]⟩
    have hq32 : q < 524288 := by omega
    cases hlist : m.free with
    | nil =>
      rw [hlist, List.length_nil] at hfree
      omega
    | cons mem rest =>
      obtain ⟨hchild₁, hpte₁, -⟩ :
          Child m₀ d (({ m with free := rest } : Ram).copyPage mem (PTE_ADDR (m.pte pgdir (q * 4096)))) ∧ _ :=
        h.child.copyPage hlist
      have hin : Present (m.pte pgdir (q * 4096)) := by
        rw [h.child.parent_pte hp]
        exact hpres _ hlt
      have hmem : mem ∈ m₀.free := h.child.free.subset (by simp [hlist])
      have hdiv : q * 4096 / 4096 = q := Nat.mul_div_cancel q (show 0 < 4096 by decide)
      have hlastdiv : (q * 4096 + PGSIZE - 1) / 4096 = q := by
        unfold PGSIZE
        omega
      have hmaps : ∃ m' r', (({ m with free := rest } : Ram).copyPage mem (PTE_ADDR (m.pte pgdir (q * 4096)))).mappages d
          (q * 4096) PGSIZE mem (PTE_W ||| PTE_U) = some (m', r') ∧ _ :=
        mappages_maps hchild₁.directory hchild₁.spare (by decide) (by unfold PGSIZE; omega) (hl.below mem hmem)
          fun x hx hlo hhi => by
            rw [hdiv] at hlo
            rw [hlastdiv] at hhi
            rw [hpte₁]
            exact hclear x (by unfold KERNBASE; omega) hlo
      obtain ⟨m₂, r, hmap, -, -, -, hused, hres⟩ := hmaps
      have hlen : m.free.length = rest.length + 1 := by rw [hlist]; rfl
      rcases hres with ⟨rfl, -⟩ | ⟨rfl, hnil, -⟩
      · obtain ⟨hpass, hcount, hother⟩ := h.pass hp hl hq32 hin hlist hmap (by decide)
        have hi : (q * 4096 + PGSIZE) % 4294967296 = (q + 1) * 4096 := by
          unfold PGSIZE
          omega
        rw [copyLoop_go hlt hin hlist hmap, hi]
        refine ih hpass (by rwa [show q + 1 + n = q + (n + 1) by omega]) (by omega) (by omega) (fun x hx hxq => ?_) (by omega)
        rw [hother x (by unfold KERNBASE at hx; omega) (by omega)]
        exact hclear x hx (by omega)
      · have hone : (q * 4096 + PGSIZE - 1) / 4194304 = q * 4096 / 4194304 := by
          unfold PGSIZE
          omega
        rw [hnil, hone, Nat.sub_self] at hused
        have hrest : rest.length ≤ 1 := hused
        omega

/-- `copyuvm` succeeds with 100 pages for the directory and its tables, and two for every page of the parent. -/
lemma copyuvm_succeeds {n : ℕ} (hp : Parent m₀ pgdir) (hl : FreeList m₀) (hsz : sz ≤ n * PGSIZE) (hn : n ≤ 524288)
    (hpres : ∀ x < sz, Present (m₀.pte pgdir x)) (hfree : 100 + 2 * n < m₀.free.length) :
    ∃ m' d, copyuvm lo 0x80108000 m₀ pgdir sz = some (m', some d) := by
  cases hlist : m₀.free with
  | nil =>
    rw [hlist, List.length_nil] at hfree
    omega
  | cons d rest =>
    obtain ⟨hchild, hzero⟩ := child_clear hlist hl.nodup hl.aligned
    set m₁ : Ram := ({ m₀ with free := rest } : Ram).clear d with hm₁
    have hlen : m₁.free.length + 1 = m₀.free.length := by rw [hlist]; rfl
    have hneed : need (kmap 0x80108000) = 66 := by decide
    obtain ⟨m, hloop, hused, hkeep⟩ : ∃ m', setupLoop d (kmap 0x80108000) m₁ = some (m', some d) ∧ _ :=
      setupLoop_succeeds hchild (by decide) (fun k _ x _ _ => by rw [hzero]; exact not_present_zero) (by decide) (by omega)
    have hsetup : setupkvm 0x80108000 m₀ = some (m, some d) := by
      simp only [setupkvm, kalloc, hlist]
      exact hloop
    obtain ⟨hchild', hkernel⟩ := setupkvm_child hl.nodup hl.aligned hsetup
    have hstart : Copying m₀ pgdir d 0 m :=
      ⟨hchild', hkernel, fun x _ hx => absurd hx (Nat.not_lt_zero _), fun x _ y _ hx => absurd hx (Nat.not_lt_zero _)⟩
    have hclear : ∀ x < KERNBASE, 0 ≤ x / 4096 → ¬ Present (m.pte d x) := by
      intro x hx _
      have hcover : ∀ k ∈ kmap 0x80108000, KERNBASE ≤ k.virt := by decide
      rw [hkeep x (by unfold KERNBASE at hx; omega), hzero]
      · exact not_present_zero
      · intro k hk hc
        have hle := hcover k hk
        have hlo := hc.1
        unfold KERNBASE at hx hle
        omega
    obtain ⟨m', hcopy⟩ : ∃ m', copyLoop lo pgdir d sz 1048576 (0 * 4096) m = some (m', some d) :=
      copyLoop_succeeds (n := n) hp hl hstart (by rwa [Nat.zero_add]) (by omega) (by omega) hpres hclear (by omega)
    refine ⟨m', d, ?_⟩
    rw [copyuvm, hsetup]
    rw [Nat.zero_mul] at hcopy
    exact hcopy

/-! ### Processes of two pages -/

/-- Page 0 with the entry `e`, page 1 with all rights; every byte of a page has its offset in it. -/
def twoPages (e : ℕ) : Ram where
  word := fun f i =>
    if f = 4096 ∧ i = 0 then 0x2007 else if f = 0x2000 ∧ i = 0 then e else if f = 0x2000 ∧ i = 1 then 0x4007 else 0
  bytes := fun _ i => UInt8.ofNat i
  free := (List.range 200).map fun i => (i + 16) * 4096

/-- A program without segments: page 0 is the page made inaccessible below the stack, page 1 the stack. -/
def guarded : Ram := twoPages 0x3003

/-- `initcode` after `sbrk(4096)`. -/
def grown : Ram := twoPages 0x3007

/-- An entry of the page 0x3000 that is there. -/
def MapsPage (e : ℕ) : Prop := Present e ∧ PTE_ADDR e = 0x3000

variable {e : ℕ}

lemma word_twoPages {i : ℕ} : (twoPages e).word 4096 i = if i = 0 then 0x2007 else 0 := by
  simp [twoPages]

lemma pte_twoPages : (twoPages e).pte 4096 x =
    if PDX x = 0 then if PTX x = 0 then e else if PTX x = 1 then 0x4007 else 0 else 0 := by
  unfold pte
  rw [word_twoPages]
  by_cases h : PDX x = 0
  · rw [if_pos h, if_pos (show Present 0x2007 by decide), if_pos h]
    simp [twoPages, PTE_ADDR]
  · rw [if_neg h, if_neg not_present_zero, if_neg h]

lemma length_free_twoPages : (twoPages e).free.length = 200 := by
  simp [twoPages]

lemma mem_free_twoPages {f : ℕ} (hf : f ∈ (twoPages e).free) : f % 4096 = 0 ∧ 0x10000 ≤ f ∧ f < 0xE0000 := by
  simp only [twoPages, List.mem_map, List.mem_range] at hf
  obtain ⟨i, hi, rfl⟩ := hf
  omega

lemma freeList_twoPages : FreeList (twoPages e) := by
  refine ⟨?_, fun f hf => (mem_free_twoPages hf).1, fun f hf => ?_⟩
  · apply List.Nodup.map _ List.nodup_range
    intro i j hij
    have h : (i + 16) * 4096 = (j + 16) * 4096 := hij
    have h' := Nat.eq_of_mul_eq_mul_right (show 0 < 4096 by decide) h
    omega
  · have := (mem_free_twoPages hf).2.2
    omega

lemma parent_twoPages (he : MapsPage e) : Parent (twoPages e) 4096 := by
  refine ⟨fun h => ?_, fun t ht h => ?_, fun x _ _ h => ?_⟩
  · have := (mem_free_twoPages h).2.1
    omega
  · have hge := (mem_free_twoPages h).2.1
    obtain ⟨i, -, hp, rfl⟩ := ht
    rw [word_twoPages] at hp hge
    split_ifs at hp hge
    · exact absurd hge (by decide)
    · exact not_present_zero hp
  · have hge := (mem_free_twoPages h).2.1
    rw [pte_twoPages] at hge
    split_ifs at hge
    · rw [he.2] at hge
      exact absurd hge (by decide)
    all_goals exact absurd hge (by decide)

lemma pte_twoPages_lt (hx : x < 8192) : (twoPages e).pte 4096 x = e ∨ (twoPages e).pte 4096 x = 0x4007 := by
  have hd : PDX x = 0 := by
    unfold PDX
    omega
  have ht : PTX x = 0 ∨ PTX x = 1 := by
    unfold PTX
    omega
  rw [pte_twoPages, if_pos hd]
  rcases ht with ht | ht
  · exact Or.inl (if_pos ht)
  · rw [if_neg (by omega), if_pos ht]
    exact Or.inr rfl

lemma copyuvm_twoPages (he : MapsPage e) :
    ∃ m' d, copyuvm 0x100000 0x80108000 (twoPages e) 4096 8192 = some (m', some d) := by
  refine copyuvm_succeeds (n := 2) (parent_twoPages he) freeList_twoPages le_rfl (by omega) (fun x hx => ?_)
    (by rw [length_free_twoPages]; omega)
  rcases pte_twoPages_lt (e := e) hx with hpte | hpte <;> rw [hpte]
  · exact he.1
  · decide

lemma mapsPage_guarded : MapsPage 0x3003 := by unfold MapsPage; decide
lemma mapsPage_grown : MapsPage 0x3007 := by unfold MapsPage; decide

/-- The two pages of the child are its own, with the bytes and the rights of the parent's. -/
theorem copyuvm_image_iff_grown : ∃ m' d, copyuvm 0x100000 0x80108000 grown 4096 8192 = some (m', some d) ∧
    (∀ x < 8192, User (grown.pte 4096 x) ∧ Writable (grown.pte 4096 x)) ∧
    Image grown 4096 8192 d m' ∧ SameRights grown 4096 8192 d m' := by
  obtain ⟨m', d, hcall⟩ := copyuvm_twoPages mapsPage_grown
  have hrights : ∀ x < 8192, User (grown.pte 4096 x) ∧ Writable (grown.pte 4096 x) := by
    intro x hx
    have hpte : grown.pte 4096 x = 0x3007 ∨ grown.pte 4096 x = 0x4007 := pte_twoPages_lt hx
    rcases hpte with hpte | hpte <;> rw [hpte] <;> decide
  exact ⟨m', d, hcall, hrights, (copyuvm_image_iff (parent_twoPages mapsPage_grown) freeList_twoPages hcall).2 hrights⟩

/-- The child may use the page below its stack. -/
theorem child_has_no_guard : ¬ ∀ (lo data : ℕ) (m₀ : Ram) (pgdir sz : ℕ) (m' : Ram) (d : ℕ), Parent m₀ pgdir → FreeList m₀ →
    copyuvm lo data m₀ pgdir sz = some (m', some d) → Image m₀ pgdir sz d m' ∧ SameRights m₀ pgdir sz d m' := by
  intro h
  obtain ⟨m', d, hcall⟩ := copyuvm_twoPages mapsPage_guarded
  have hparent : Parent guarded 4096 := parent_twoPages mapsPage_guarded
  have hpte : guarded.pte 4096 0 = 0x3003 := by
    unfold guarded
    rw [pte_twoPages]
    rfl
  obtain ⟨-, hsame⟩ := h _ _ _ _ _ _ _ hparent freeList_twoPages hcall
  obtain ⟨q, hsz, hq, hcopy⟩ := copyuvm_copies hparent freeList_twoPages hcall
  have hflags := (hcopy.image hparent freeList_twoPages hsz hq).2 0 (by decide)
  have huser := (hsame 0 (by decide)).1.1 hflags.1
  rw [hpte] at huser
  exact absurd huser (by decide)

end Ram

end Memory

end Os132

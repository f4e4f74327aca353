import Os132.Memory.Exec

/-!
# The segments of an image

What `allocuvm`, `loaduvm` and the loop of `exec` over the program headers do: when they stop the kernel, when
they succeed, and that then each segment holds its bytes of the file and zeros behind them, on the pages
for which there was a page table.
-/

namespace Os132

namespace Memory

namespace Exec

/-! ### How a part of exec ends -/

variable {α β : Type} {post : α → Prop} {a : α} {stops goes stops' goes' : Prop}

/-- The kernel stops if and only if `stops`, there is a result if and only if `goes`, and the result has the property. -/
structure Ends (r : Except Fail α) (stops goes : Prop) (post : α → Prop) : Prop where
  panic : r = .error .panic ↔ stops
  ok : (∃ a, r = .ok a) ↔ goes
  post : ∀ a, r = .ok a → post a

lemma ends_ok (h : post a) : Ends (.ok a) False True post := by
  constructor
  · exact iff_of_false (fun he => by cases he) id
  · exact iff_of_true ⟨a, rfl⟩ trivial
  · intro b hb
    cases hb
    exact h

lemma ends_bad : Ends (.error .bad : Except Fail α) False False post := by
  constructor
  · exact iff_of_false (fun he => by cases he) id
  · exact iff_of_false (fun ⟨_, he⟩ => by cases he) id
  · intro b hb
    cases hb

lemma ends_panic : Ends (.error .panic : Except Fail α) True False post := by
  constructor
  · exact iff_of_true rfl trivial
  · exact iff_of_false (fun ⟨_, he⟩ => by cases he) id
  · intro b hb
    cases hb

lemma Ends.congr {r : Except Fail α} (h : Ends r stops goes post) (hs : stops ↔ stops') (hg : goes ↔ goes') :
    Ends r stops' goes' post := ⟨h.panic.trans hs, h.ok.trans hg, h.post⟩

lemma Ends.mono {r : Except Fail α} {post' : α → Prop} (h : Ends r stops goes post) (hp : ∀ a, post a → post' a) :
    Ends r stops goes post' := ⟨h.panic, h.ok, fun a ha => hp a (h.post a ha)⟩

lemma Ends.bind {x : Except Fail α} {f : α → Except Fail β} {S G : Prop} {Q : β → Prop} (h : Ends x stops goes post)
    (hf : ∀ a, post a → Ends (f a) S G Q) : Ends (x >>= f) (stops ∨ goes ∧ S) (goes ∧ G) Q := by
  cases x with
  | ok a =>
    have hgoes : goes := h.ok.1 ⟨a, rfl⟩
    have hstops : ¬ stops := fun hs => by cases h.panic.2 hs
    exact (hf a (h.post a rfl)).congr (by simp [hgoes, hstops]) (by simp [hgoes])
  | error e =>
    have hgoes : ¬ goes := fun hg => by
      obtain ⟨_, hb⟩ := h.ok.2 hg
      cases hb
    cases e with
    | bad =>
      have hstops : ¬ stops := fun hs => by cases h.panic.2 hs
      exact ends_bad.congr (by simp [hgoes, hstops]) (by simp [hgoes])
    | panic => exact ends_panic.congr (by simp [h.panic.1 rfl]) (by simp [hgoes])

variable {env : Env} {s s' s₁ : Vm} {n n' p o va sz : ℕ} {src file : List UInt8}

/-! ### The memory of the process -/

/-- The byte at address `va`, if the process can access it. -/
def Vm.get (s : Vm) (va : ℕ) : Option UInt8 :=
  (s.page (va / 4096)).bind fun g => if g.user then some (g.byte (va % 4096)) else none

/-- The process reads these bytes from address `va` on. -/
def Holds (s : Vm) (va : ℕ) (bs : List UInt8) : Prop := ∀ j b, bs[j]? = some b → s.get (va + j) = some b

lemma get_write_of_ne (h : va / 4096 ≠ p ∨ va % 4096 < o ∨ o + src.length ≤ va % 4096) :
    (s.write p o src).get va = s.get va := by
  unfold Vm.get Vm.write
  by_cases hp : va / 4096 = p
  · simp only [hp, if_true]
    cases s.page p with
    | none => rfl
    | some g =>
      simp only [Option.map_some, Option.bind_some]
      split_ifs with h1 h2
      · rw [List.getElem?_eq_none (by omega)]
        rfl
      · rfl
      · rfl
  · simp only [if_neg hp]

lemma get_write_self {b : UInt8} (hu : (s.page p).any Page.user) (hp : va / 4096 = p) (ho : o ≤ va % 4096)
    (hb : src[va % 4096 - o]? = some b) : (s.write p o src).get va = some b := by
  unfold Vm.get Vm.write
  cases hg : s.page p with
  | none =>
    rw [hg] at hu
    cases hu
  | some g =>
    rw [hg] at hu
    have hu' : g.user = true := hu
    simp only [hp, if_true, hg, Option.map_some, Option.bind_some, hu', if_pos ho, hb]
    rfl

@[simp] lemma write_table : (s.write p o src).table = s.table := rfl

lemma write_page {q : ℕ} : ((s.write p o src).page q).any Page.user = (s.page q).any Page.user := by
  unfold Vm.write
  by_cases h : q = p
  · simp only [if_pos h]
    cases s.page q with
    | none => rfl
    | some g => rfl
  · simp only [if_neg h]

lemma write_page_of_none {q : ℕ} (h : s.page q = none) : (s.write p o src).page q = none := by
  unfold Vm.write
  simp only [h, Option.map_none, ite_self]

lemma get_isSome : (s.get va).isSome = (s.page (va / 4096)).any Page.user := by
  unfold Vm.get
  cases s.page (va / 4096) with
  | none => rfl
  | some g =>
    cases hu : g.user with
    | true => simp [hu]
    | false => simp [hu]

/-- When the first `m` pages have been asked for, page `p` has a page table: `kalloc` gave one for a page of the
same 4 MB. -/
def Tabled (env : Env) (m p : ℕ) : Prop := ∃ q, q < m ∧ q / 1024 = p / 1024 ∧ env.table q = true

/-- Page `p` had a page table when it was its turn. -/
def Maps (env : Env) (p : ℕ) : Prop := Tabled env (p + 1) p

lemma Tabled.mono {m k : ℕ} (h : Tabled env m p) (hle : m ≤ k) : Tabled env k p := by
  obtain ⟨q, hq, hp, ht⟩ := h
  exact ⟨q, hq.trans_le hle, hp, ht⟩

lemma tabled_congr {m q : ℕ} (h : p / 1024 = q / 1024) : Tabled env m p ↔ Tabled env m q := by
  unfold Tabled
  rw [h]

lemma tabled_succ {m : ℕ} : Tabled env (m + 1) p ↔ Tabled env m p ∨ m / 1024 = p / 1024 ∧ env.table m = true := by
  constructor
  · rintro ⟨q, hq, hp, ht⟩
    rcases Nat.lt_succ_iff_lt_or_eq.1 hq with hlt | rfl
    · exact Or.inl ⟨q, hlt, hp, ht⟩
    · exact Or.inr ⟨hp, ht⟩
  · rintro (h | ⟨hp, ht⟩)
    · exact h.mono (Nat.le_succ m)
    · exact ⟨m, Nat.lt_succ_self m, hp, ht⟩

/-- The first `n` pages have been asked for, and nothing else is mapped below the kernel. -/
structure Grown (env : Env) (s : Vm) (n : ℕ) : Prop where
  le : n ≤ 524288
  user : ∀ p, p < n → ((s.page p).any Page.user = true ↔ Maps env p)
  table : ∀ p, p < 524288 → (s.table (p / 1024) = true ↔ Tabled env n p)
  above : ∀ p, n ≤ p → p < 524288 → s.page p = none
  kernel : ∀ p, Kernel p → s.table (p / 1024) = true ∧ (s.page p).any Page.user = false
  gap : ∀ p, 581632 ≤ p → p < 1040384 → s.table (p / 1024) = false ∧ s.page p = none

lemma not_kernel (h : p < 524288) : ¬ Kernel p := by
  unfold Kernel KERNBASE PGSIZE DEVSPACE PHYSTOP
  omega

lemma Grown.write (h : Grown env s n) : Grown env (s.write p o src) n := by
  constructor
  · exact h.le
  · intro q hq
    rw [write_page]
    exact h.user q hq
  · exact h.table
  · intro q hq hlt
    exact write_page_of_none (h.above q hq hlt)
  · intro q hq
    rw [write_page]
    exact h.kernel q hq
  · intro q hq hlt
    exact ⟨(h.gap q hq hlt).1, write_page_of_none (h.gap q hq hlt).2⟩

/-- `s'` has grown to `n'` pages; what was there is unchanged, and the new pages are zero. -/
structure Extends (env : Env) (s : Vm) (n : ℕ) (s' : Vm) (n' : ℕ) : Prop where
  le : n ≤ n'
  grown : Grown env s' n'
  keep : ∀ va, va < n * 4096 → s'.get va = s.get va
  zero : ∀ va, n * 4096 ≤ va → va < n' * 4096 → Maps env (va / 4096) → s'.get va = some 0

lemma Extends.refl (h : Grown env s n) : Extends env s n s n := by
  constructor
  · exact le_rfl
  · exact h
  · intro va _
    rfl
  · intro va h1 h2
    omega

lemma Extends.trans {s₂ : Vm} {n₂ : ℕ} (h : Extends env s n s' n') (h' : Extends env s' n' s₂ n₂) :
    Extends env s n s₂ n₂ := by
  have hle := h.le
  have hle' := h'.le
  constructor
  · omega
  · exact h'.grown
  · intro va hva
    have hva' : va < n' * 4096 := hva.trans_le (Nat.mul_le_mul_right 4096 hle)
    rw [h'.keep va hva', h.keep va hva]
  · intro va h1 h2 hmap
    by_cases hva : va < n' * 4096
    · rw [h'.keep va hva, h.zero va h1 hva hmap]
    · exact h'.zero va (Nat.le_of_not_lt hva) h2 hmap

/-- `mappages` for the next page, which has a page table. -/
lemma grown_map (h : Grown env s n) (hn : n < 524288) (hmap : Maps env n) :
    Extends env s n ⟨fun i => if i = n / NPTENTRIES then true else s.table i,
      fun q => if q = n then some ⟨true, fun _ => 0⟩ else s.page q⟩ (n + 1) := by
  refine ⟨by omega, ⟨by omega, fun p hp => ?_, fun p hp => ?_, fun p hp hlt => ?_, fun p hp => ?_, fun p hp hlt => ?_⟩,
    fun va hva => ?_, fun va h1 h2 _ => ?_⟩
  · by_cases hpn : p = n
    · subst hpn
      simp only [if_true]
      exact iff_of_true rfl hmap
    · simp only [if_neg hpn]
      exact h.user p (by omega)
  · unfold NPTENTRIES
    by_cases hpn : p / 1024 = n / 1024
    · simp only [if_pos hpn]
      exact iff_of_true trivial ((tabled_congr hpn).2 hmap)
    · simp only [if_neg hpn]
      rw [h.table p hp, tabled_succ]
      constructor
      · exact Or.inl
      · rintro (ht | ⟨heq, -⟩)
        · exact ht
        · exact absurd heq.symm hpn
  · simp only
    rw [if_neg (by omega)]
    exact h.above p (by omega) hlt
  · have hne : p ≠ n := by
      rintro rfl
      exact not_kernel hn hp
    simp only [if_neg hne]
    refine ⟨?_, (h.kernel p hp).2⟩
    unfold NPTENTRIES
    by_cases hpn : p / 1024 = n / 1024
    · simp only [if_pos hpn]
    · simp only [if_neg hpn]
      exact (h.kernel p hp).1
  · unfold NPTENTRIES
    have hne : p / 1024 ≠ n / 1024 := by omega
    have hne' : p ≠ n := by omega
    simp only [if_neg hne, if_neg hne']
    exact h.gap p hp hlt
  · unfold Vm.get
    simp only
    rw [if_neg (by omega)]
  · unfold Vm.get
    simp only
    rw [if_pos (by omega)]
    rfl

/-- `mappages` for the next page, which has none: `allocuvm` passes over it. -/
lemma grown_skip (h : Grown env s n) (hn : n < 524288) (hmap : ¬ Maps env n) : Extends env s n s (n + 1) := by
  have hnone := h.above n le_rfl hn
  have htable : env.table n ≠ true := fun ht => hmap ⟨n, Nat.lt_succ_self n, rfl, ht⟩
  refine ⟨by omega, ⟨by omega, fun p hp => ?_, fun p hp => ?_, fun p hp hlt => ?_, h.kernel, h.gap⟩, fun _ _ => rfl,
    fun va h1 h2 hva => ?_⟩
  · by_cases hpn : p = n
    · subst hpn
      rw [hnone]
      exact iff_of_false Bool.false_ne_true hmap
    · exact h.user p (by omega)
  · rw [h.table p hp, tabled_succ]
    constructor
    · exact Or.inl
    · rintro (ht | ⟨-, ht⟩)
      · exact ht
      · exact absurd ht htable
  · exact h.above p (by omega) hlt
  · have hpage : va / 4096 = n := by omega
    rw [hpage] at hva
    exact absurd hva hmap

lemma mappages_extends (h : Grown env s n) (hn : n < 524288) :
    ∃ s', mappages env n s = .ok s' ∧ Extends env s n s' (n + 1) := by
  have hnone := h.above n le_rfl hn
  have hmaps : s.table (n / NPTENTRIES) = true ∨ env.table n = true ↔ Maps env n := by
    unfold Maps
    rw [tabled_succ, ← h.table n hn]
    simp [NPTENTRIES]
  unfold mappages
  by_cases hmap : Maps env n
  · rw [if_pos (hmaps.2 hmap), hnone, if_neg (by simp)]
    exact ⟨_, rfl, grown_map h hn hmap⟩
  · rw [if_neg fun ho => hmap (hmaps.1 ho)]
    exact ⟨_, rfl, grown_skip h hn hmap⟩

/-- The number of pages of an image. -/
def pages (sz : ℕ) : ℕ := (sz + 4095) / 4096

lemma pgroundup (h : sz < 2147483648) : PGROUNDUP sz = pages sz * 4096 := by
  unfold PGROUNDUP PGSIZE pages
  omega

lemma le_pages : sz ≤ pages sz * 4096 := by
  unfold pages
  omega

lemma pages_mono {oldsz : ℕ} (h : oldsz ≤ sz) : pages oldsz * 4096 ≤ pages sz * 4096 := by
  unfold pages
  omega

lemma pages_le {addr : ℕ} (ha : addr % 4096 = 0) (h : sz ≤ addr) : pages sz * 4096 ≤ addr := by
  unfold pages
  omega

lemma lt_pages {m : ℕ} : m < pages sz ↔ m * 4096 < sz := by
  unfold pages
  omega

lemma allocLoop_ends {fuel newsz : ℕ} (h : Grown env s n) (hsz : newsz < 2147483648) (hfuel : newsz ≤ (n + fuel) * 4096) :
    Ends (allocLoop env newsz fuel n s) False (∀ p, n ≤ p → p < pages newsz → env.page p = true)
      fun s' => Extends env s n s' (max n (pages newsz)) := by
  induction fuel generalizing n s with
  | zero =>
    have hle : pages newsz ≤ n := by
      unfold pages
      omega
    refine (ends_ok ?_).congr Iff.rfl (iff_of_true trivial fun p h1 h2 => ?_)
    · rw [max_eq_left hle]
      exact .refl h
    · omega
  | succ fuel ih =>
    unfold allocLoop
    by_cases hlt : n * 4096 < newsz
    · rw [if_pos (show n * PGSIZE < newsz from hlt)]
      by_cases hp : env.page n = true
      · rw [if_pos hp]
        obtain ⟨s₁, hmap, hext⟩ := mappages_extends h (by omega)
        rw [hmap]
        have hfuel' : newsz ≤ (n + 1 + fuel) * 4096 := by
          rw [Nat.add_right_comm]
          exact hfuel
        have hmax : max (n + 1) (pages newsz) = max n (pages newsz) := by
          have hin := lt_pages.2 hlt
          omega
        have hrest := ih hext.grown hfuel'
        rw [hmax] at hrest
        refine (hrest.mono fun s' hs' => hext.trans hs').congr Iff.rfl ⟨fun hall p h1 h2 => ?_, fun hall p h1 h2 => ?_⟩
        · rcases Nat.eq_or_lt_of_le h1 with rfl | h1
          · exact hp
          · exact hall p h1 h2
        · exact hall p (by omega) h2
      · rw [if_neg hp]
        refine ends_bad.congr Iff.rfl (iff_of_false id fun hall => hp ?_)
        exact hall n le_rfl (lt_pages.2 hlt)
    · rw [if_neg (show ¬ n * PGSIZE < newsz from hlt)]
      have hle : pages newsz ≤ n := Nat.le_of_not_lt fun hin => hlt (lt_pages.1 hin)
      refine (ends_ok ?_).congr Iff.rfl (iff_of_true trivial fun p h1 h2 => ?_)
      · rw [max_eq_left hle]
        exact .refl h
      · omega

/-- `allocuvm` has an address space and pages for what is to come. -/
structure Room (env : Env) (oldsz newsz : ℕ) : Prop where
  pos : 0 < newsz
  below : newsz < KERNBASE
  page : ∀ p, pages oldsz ≤ p → p < pages newsz → env.page p = true

lemma allocuvm_ends {oldsz newsz : ℕ} (hold : oldsz < 2147483648) (h : Grown env s (pages oldsz)) (hle : oldsz ≤ newsz) :
    Ends (allocuvm env s oldsz newsz) False (Room env oldsz newsz) fun r =>
      r.2 = newsz ∧ newsz < 2147483648 ∧ Extends env s (pages oldsz) r.1 (pages newsz) := by
  unfold allocuvm
  by_cases hk : KERNBASE ≤ newsz
  · rw [if_pos hk]
    exact ends_bad.congr Iff.rfl (iff_of_false id fun hr => absurd hr.below (by omega))
  · rw [if_neg hk, if_neg (by omega)]
    have hk' : newsz < 2147483648 := Nat.lt_of_not_ge hk
    have hpage : PGROUNDUP oldsz / PGSIZE = pages oldsz := by
      rw [pgroundup hold]
      exact Nat.mul_div_cancel _ (by decide)
    rw [hpage]
    have hfuel : newsz ≤ (pages oldsz + (newsz / PGSIZE + 1)) * 4096 := by
      unfold PGSIZE
      omega
    have hmax : max (pages oldsz) (pages newsz) = pages newsz := by
      unfold pages
      omega
    have hloop := allocLoop_ends h hk' hfuel
    rw [hmax] at hloop
    have hnext : ∀ s', Extends env s (pages oldsz) s' (pages newsz) →
        Ends (if newsz = 0 then .error .bad else .ok (s', newsz) : Except Fail (Vm × ℕ)) False (0 < newsz) fun r =>
          r.2 = newsz ∧ newsz < 2147483648 ∧ Extends env s (pages oldsz) r.1 (pages newsz) := by
      intro s' hs'
      split_ifs with h0
      · exact ends_bad.congr Iff.rfl (iff_of_false id (by omega))
      · exact (ends_ok ⟨rfl, hk', hs'⟩).congr Iff.rfl (iff_of_true trivial (by omega))
    refine (hloop.bind hnext).congr (by simp) ⟨fun ⟨hp, h0⟩ => ⟨h0, hk', hp⟩, fun hr => ⟨hr.page, hr.pos⟩⟩

/-! ### Loading -/

lemma readi_full {off n : ℕ} {bs : List UInt8} (h : readi file off n = some bs) (hlen : bs.length = n) :
    off + n ≤ file.length ∧ ∀ j, j < n → bs[j]? = file[off + j]? := by
  unfold readi at h
  split_ifs at h with hbad
  simp only [Option.some.injEq] at h
  rw [← h, List.length_take, List.length_drop] at hlen
  refine ⟨by omega, fun j hj => ?_⟩
  rw [← h, List.getElem?_take_of_lt hj, List.getElem?_drop]

/-- A read of bytes that the file has. -/
lemma readi_inside {off n : ℕ} (hfile : file.length < 2147483648) (h : off + n ≤ file.length) :
    ∃ bs, readi file off n = some bs ∧ bs.length = n := by
  have hno : ¬ (file.length < off ∨ (off + n) % 2 ^ 32 < off) := by
    have hmod : (off + n) % 2 ^ 32 = off + n := Nat.mod_eq_of_lt (h.trans_lt (hfile.trans (by decide)))
    rw [hmod]
    omega
  unfold readi
  rw [if_neg hno]
  refine ⟨_, rfl, ?_⟩
  rw [List.length_take, List.length_drop]
  omega

/-- Bytes of the file in memory, on the pages that are mapped. -/
def Loaded (env : Env) (file : List UInt8) (offset addr i sz : ℕ) (s : Vm) : Prop :=
  ∀ j, i ≤ j → j < sz → ∃ b, file[offset + j]? = some b ∧ (Maps env ((addr + j) / 4096) → s.get (addr + j) = some b)

/-- `loaduvm` comes to a page without a page table, when `n` pages have been asked for. -/
def Bare (env : Env) (n addr offset i sz : ℕ) (file : List UInt8) : Prop :=
  ∃ j, i ≤ j ∧ j < sz ∧ j % 4096 = 0 ∧ (i < j → offset + j ≤ file.length) ∧ ¬ Tabled env n ((addr + j) / 4096)

/-- The file has the bytes from `i` on, and there is a page table for all of them. -/
def Whole (env : Env) (n addr offset i sz : ℕ) (file : List UInt8) : Prop :=
  (i < sz → offset + sz ≤ file.length) ∧ ∀ j, i ≤ j → j < sz → Tabled env n ((addr + j) / 4096)

variable {addr offset i : ℕ}

/-- Behind a page that has been read. -/
lemma bare_next (hpage : Tabled env n ((addr + i) / 4096)) (hend : offset + i + min (sz - i) 4096 ≤ file.length)
    (hi : i % 4096 = 0) : Bare env n addr offset (i + 4096) sz file ↔ Bare env n addr offset i sz file := by
  constructor
  · rintro ⟨j, h1, h2, h3, h4, h5⟩
    refine ⟨j, by omega, h2, h3, fun _ => ?_, h5⟩
    rcases Nat.eq_or_lt_of_le h1 with heq | hj
    · omega
    · exact h4 hj
  · rintro ⟨j, h1, h2, h3, h4, h5⟩
    rcases Nat.eq_or_lt_of_le h1 with rfl | hj
    · exact absurd hpage h5
    · exact ⟨j, by omega, h2, h3, fun _ => h4 hj, h5⟩

lemma whole_next (hpage : Tabled env n ((addr + i) / 4096)) (hend : offset + i + min (sz - i) 4096 ≤ file.length)
    (haddr : addr % 4096 = 0) (hi : i % 4096 = 0) (hlt : i < sz) :
    Whole env n addr offset (i + 4096) sz file ↔ Whole env n addr offset i sz file := by
  constructor
  · rintro ⟨h1, h2⟩
    refine ⟨fun _ => ?_, fun j hj hj' => ?_⟩
    · by_cases hmore : i + 4096 < sz
      · exact h1 hmore
      · omega
    · by_cases hnext : i + 4096 ≤ j
      · exact h2 j hnext hj'
      · have heq : (addr + j) / 4096 = (addr + i) / 4096 := by omega
        rw [heq]
        exact hpage
  · rintro ⟨h1, h2⟩
    exact ⟨fun _ => h1 hlt, fun j hj hj' => h2 j (by omega) hj'⟩

/-- What loading leaves. -/
structure Loads (env : Env) (n addr offset i sz : ℕ) (file : List UInt8) (s s' : Vm) : Prop where
  grown : Grown env s' n
  loaded : Loaded env file offset addr i sz s'
  keep : ∀ va, va < addr + i ∨ addr + sz ≤ va → s'.get va = s.get va

lemma loads_done (h : Grown env s n) (hle : sz ≤ i) : Ends (.ok s) (Bare env n addr offset i sz file)
    (Whole env n addr offset i sz file) (Loads env n addr offset i sz file s) := by
  have hsame : Loads env n addr offset i sz file s s := by
    refine ⟨h, fun j h1 h2 => ?_, fun _ _ => rfl⟩
    omega
  refine (ends_ok hsame).congr (iff_of_false id ?_) (iff_of_true trivial ⟨fun hlt => ?_, fun j h1 h2 => ?_⟩)
  · rintro ⟨j, h1, h2, -⟩
    omega
  · omega
  · omega

lemma loadLoop_ends {fuel : ℕ} (hfile : file.length < 2147483648) (h : Grown env s n) (haddr : addr % 4096 = 0)
    (hi : i % 4096 = 0) (hsz : addr + sz ≤ n * 4096) (hoff : offset + i < 4294967296) (hfuel : sz ≤ i + fuel * 4096) :
    Ends (loadLoop file addr offset sz fuel i s) (Bare env n addr offset i sz file) (Whole env n addr offset i sz file)
      (Loads env n addr offset i sz file s) := by
  induction fuel generalizing i s with
  | zero => exact loads_done h (by omega)
  | succ fuel ih =>
    unfold loadLoop
    by_cases hlt : i < sz
    · have hpage : (addr + i) / 4096 < n := by omega
      have hle := h.le
      have htable := h.table ((addr + i) / 4096) (by omega)
      rw [if_pos hlt]
      by_cases hmap : Tabled env n ((addr + i) / 4096)
      · rw [if_pos (show s.table ((addr + i) / PGSIZE / NPTENTRIES) = true from htable.2 hmap)]
        dsimp only
        rw [show (offset + i) % 2 ^ 32 = offset + i from Nat.mod_eq_of_lt hoff]
        by_cases hend : offset + i + min (sz - i) 4096 ≤ file.length
        · obtain ⟨bs, hr, hlen⟩ := readi_inside hfile hend
          have hbs := (readi_full hr hlen).2
          rw [show readi file (offset + i) (min (sz - i) PGSIZE) = some bs from hr]
          dsimp only
          rw [if_pos (show bs.length = min (sz - i) PGSIZE from hlen)]
          have hcut : ∀ va, va < addr + i ∨ addr + i + min (sz - i) 4096 ≤ va →
              (s.write ((addr + i) / PGSIZE) 0 bs).get va = s.get va := by
            intro va hva
            apply get_write_of_ne
            rw [hlen]
            unfold PGSIZE
            omega
          have hg' : Grown env (s.write ((addr + i) / PGSIZE) 0 bs) n := h.write
          have hrest := ih hg' (i := i + 4096) (by omega) (by omega) (by omega)
          · refine (hrest.mono ?_).congr (bare_next hmap hend hi) (whole_next hmap hend haddr hi hlt)
            rintro s' ⟨hg, hl, hk⟩
            refine ⟨hg, fun j h1 h2 => ?_, fun va hva => ?_⟩
            · by_cases hj : j < i + 4096
              · have hjn : j - i < min (sz - i) 4096 := by omega
                have hget := hbs (j - i) hjn
                have hb : bs[j - i]? = some bs[j - i] := List.getElem?_eq_getElem (by omega)
                refine ⟨bs[j - i], ?_, fun hj' => ?_⟩
                · rw [hb] at hget
                  rw [hget]
                  congr 1
                  omega
                · rw [hk _ (by omega)]
                  have heq : (addr + j) / 4096 = (addr + i) / 4096 := by omega
                  rw [heq] at hj'
                  apply get_write_self ((h.user _ hpage).2 hj')
                  · exact heq
                  · exact Nat.zero_le _
                  · rw [← hb]
                    congr 1
                    omega
              · exact hl j (by omega) h2
            · rw [hk va (by omega), hcut va (by omega)]
        · have hbad : Ends (.error .bad) (Bare env n addr offset i sz file) (Whole env n addr offset i sz file)
              (Loads env n addr offset i sz file s) := by
            refine ends_bad.congr (iff_of_false id ?_) (iff_of_false id ?_)
            · rintro ⟨j, h1, h2, h3, h4, h5⟩
              rcases Nat.eq_or_lt_of_le h1 with rfl | hj
              · exact h5 hmap
              · have hread := h4 hj
                omega
            · rintro ⟨hall, -⟩
              have hread := hall hlt
              omega
          cases hr : readi file (offset + i) (min (sz - i) PGSIZE) with
          | none => exact hbad
          | some bs =>
            dsimp only
            rw [if_neg fun hlen => hend (readi_full hr hlen).1]
            exact hbad
      · rw [if_neg (show ¬ s.table ((addr + i) / PGSIZE / NPTENTRIES) = true from fun ht => hmap (htable.1 ht))]
        refine ends_panic.congr (iff_of_true trivial ?_) (iff_of_false id ?_)
        · exact ⟨i, le_rfl, hlt, hi, fun hno => absurd hno (lt_irrefl i), hmap⟩
        · exact fun hw => hmap (hw.2 i le_rfl hlt)
    · rw [if_neg hlt]
      exact loads_done h (by omega)

lemma loaduvm_ends (hfile : file.length < 2147483648) (h : Grown env s n) (haddr : addr % 4096 = 0)
    (hsz : addr + sz ≤ n * 4096) (hoff : offset < 4294967296) :
    Ends (loaduvm s addr file offset sz) (Bare env n addr offset 0 sz file) (Whole env n addr offset 0 sz file)
      (Loads env n addr offset 0 sz file s) := by
  unfold loaduvm
  rw [if_neg (by unfold PGSIZE; omega)]
  exact loadLoop_ends hfile h haddr rfl hsz hoff (by unfold PGSIZE; omega)

/-! ### Segments -/

/-- The program headers of the loadable segments among `k` headers from `off` on. -/
def segments (file : List UInt8) : ℕ → ℕ → List ProgHdr
  | 0, _ => []
  | k + 1, off =>
    match readi file off 32 with
    | none => []
    | some b =>
      if (proghdr b).type = ELF_PROG_LOAD then proghdr b :: segments file k ((off + 32) % 2 ^ 32)
      else segments file k ((off + 32) % 2 ^ 32)

/-- Segments that are page-aligned, below the kernel, ascending and without overlap. -/
structure Loadable (segs : List ProgHdr) : Prop where
  aligned : ∀ ph ∈ segs, ph.vaddr % PGSIZE = 0
  below : ∀ ph ∈ segs, ph.vaddr + ph.memsz ≤ KERNBASE
  ascending : segs.Pairwise fun a b => a.vaddr + a.memsz ≤ b.vaddr

lemma Loadable.tail {ph : ProgHdr} {segs : List ProgHdr} (h : Loadable (ph :: segs)) : Loadable segs :=
  ⟨fun q hq => h.aligned q (List.mem_cons_of_mem _ hq), fun q hq => h.below q (List.mem_cons_of_mem _ hq),
    (List.pairwise_cons.1 h.ascending).2⟩

/-- The segment holds its bytes of the file, and zeros behind them. -/
structure InMemory (file : List UInt8) (s : Vm) (ph : ProgHdr) : Prop where
  data : ∀ j, j < ph.filesz → ∃ b, file[ph.off + j]? = some b ∧ s.get (ph.vaddr + j) = some b
  bss : ∀ j, ph.filesz ≤ j → j < ph.memsz → s.get (ph.vaddr + j) = some 0

/-- It does so on the pages that are mapped. -/
structure Partly (env : Env) (file : List UInt8) (s : Vm) (ph : ProgHdr) : Prop where
  data : ∀ j, j < ph.filesz → ∃ b, file[ph.off + j]? = some b ∧
    (Maps env ((ph.vaddr + j) / 4096) → s.get (ph.vaddr + j) = some b)
  bss : ∀ j, ph.filesz ≤ j → j < ph.memsz → Maps env ((ph.vaddr + j) / 4096) → s.get (ph.vaddr + j) = some 0

lemma Partly.congr {ph : ProgHdr} (hk : ∀ va, va < ph.vaddr + ph.memsz → s'.get va = s.get va) (hsz : ph.filesz ≤ ph.memsz)
    (h : Partly env file s ph) : Partly env file s' ph := by
  constructor
  · intro j hj
    rw [hk _ (by omega)]
    exact h.data j hj
  · intro j h1 h2
    rw [hk _ (by omega)]
    exact h.bss j h1 h2

/-- There was a page table for every page of the segment. -/
def Covered (env : Env) (ph : ProgHdr) : Prop :=
  ∀ p, ph.vaddr / 4096 ≤ p → p * 4096 < ph.vaddr + ph.memsz → Maps env p

lemma Partly.inMemory {ph : ProgHdr} (hsz : ph.filesz ≤ ph.memsz) (h : Partly env file s ph) (hc : Covered env ph) :
    InMemory file s ph := by
  have hmaps : ∀ j, j < ph.memsz → Maps env ((ph.vaddr + j) / 4096) := fun j hj => hc _ (by omega) (by omega)
  constructor
  · intro j hj
    obtain ⟨b, hb, hget⟩ := h.data j hj
    exact ⟨b, hb, hget (hmaps j (hj.trans_le hsz))⟩
  · intro j h1 h2
    exact h.bss j h1 h2 (hmaps j h2)

lemma InMemory.isSome {ph : ProgHdr} (h : InMemory file s ph) {j : ℕ} (hj : j < ph.memsz) :
    (s.get (ph.vaddr + j)).isSome = true := by
  by_cases hdata : j < ph.filesz
  · obtain ⟨b, -, hget⟩ := h.data j hdata
    rw [hget]
    rfl
  · rw [h.bss j (Nat.le_of_not_lt hdata) hj]
    rfl

lemma word_lt (b : List UInt8) (i : ℕ) : word b i < 4294967296 := by
  have hb : ∀ k, (b.getD k 0).toNat < 256 := fun k => UInt8.toNat_lt _
  have h0 := hb i
  have h1 := hb (i + 1)
  have h2 := hb (i + 2)
  have h3 := hb (i + 3)
  unfold word
  omega

lemma setupkvm_ends : Ends (setupkvm env) False (env.kvm = true) fun s => Grown env s 0 := by
  unfold setupkvm
  by_cases hk : env.kvm = true
  · rw [if_pos hk]
    refine Ends.congr (ends_ok ⟨by omega, fun p hp => ?_, fun p hp => ?_, fun p _ hlt => ?_, fun p hp => ?_,
      fun p hp hlt => ?_⟩) Iff.rfl (iff_of_true trivial hk)
    · omega
    · simp only [decide_eq_true_eq]
      refine iff_of_false ?_ ?_
      · unfold Kernel KERNBASE PGSIZE PHYSTOP DEVSPACE NPTENTRIES
        omega
      · rintro ⟨q, hq, -⟩
        omega
    · exact if_neg (not_kernel hlt)
    · constructor
      · simp only [decide_eq_true_eq]
        unfold Kernel KERNBASE PGSIZE PHYSTOP DEVSPACE NPTENTRIES at *
        omega
      · simp only [if_pos hp]
        rfl
    · constructor
      · simp only [decide_eq_false_iff_not]
        unfold Kernel KERNBASE PGSIZE PHYSTOP DEVSPACE NPTENTRIES
        omega
      · apply if_neg
        unfold Kernel KERNBASE PGSIZE PHYSTOP DEVSPACE
        omega
  · rw [if_neg hk]
    exact ends_bad.congr Iff.rfl (iff_of_false id hk)

/-- Where the last segment ends. -/
def imageEnd (sz : ℕ) (segs : List ProgHdr) : ℕ := segs.foldl (fun _ ph => ph.vaddr + ph.memsz) sz

/-- The image after the loop over the program headers. -/
structure Image (env : Env) (file : List UInt8) (segs : List ProgHdr) (sz : ℕ) (s : Vm) (r : Vm × ℕ) : Prop where
  grown : Grown env r.1 (pages r.2)
  lt : r.2 < 2147483648
  keep : ∀ va, va < pages sz * 4096 → r.1.get va = s.get va
  held : ∀ ph ∈ segs, Partly env file r.1 ph
  ends : ∀ ph ∈ segs, ph.filesz ≤ ph.memsz ∧ ph.vaddr + ph.memsz ≤ r.2
  size : r.2 = imageEnd sz segs
  le : sz ≤ r.2

/-- `exec` comes to load the segment, behind `oldsz` bytes. -/
structure Placed (env : Env) (oldsz : ℕ) (ph : ProgHdr) : Prop where
  fits : ph.filesz ≤ ph.memsz
  room : Room env oldsz (ph.vaddr + ph.memsz)

/-- Loading the segment comes to a page without a page table. -/
def ProgHdr.Bare (env : Env) (file : List UInt8) (ph : ProgHdr) : Prop :=
  Exec.Bare env (pages (ph.vaddr + ph.memsz)) ph.vaddr ph.off 0 ph.filesz file

/-- The file has the bytes of the segment, and there are page tables for them. -/
def ProgHdr.Whole (env : Env) (file : List UInt8) (ph : ProgHdr) : Prop :=
  Exec.Whole env (pages (ph.vaddr + ph.memsz)) ph.vaddr ph.off 0 ph.filesz file

/-- A loadable segment. -/
lemma segment_ends {ph : ProgHdr} {oldsz : ℕ} (hfile : file.length < 2147483648)
    (h : Grown env s (pages oldsz)) (hold : oldsz < 2147483648) (haligned : ph.vaddr % 4096 = 0) (hle : oldsz ≤ ph.vaddr)
    (hfilesz : ph.filesz ≤ ph.memsz) (hoff : ph.off < 4294967296) (hend : ph.vaddr + ph.memsz ≤ 2147483648) :
    Ends (do
      let r ← allocuvm env s oldsz ((ph.vaddr + ph.memsz) % 2 ^ 32)
      let s ← loaduvm r.1 ph.vaddr file ph.off ph.filesz
      .ok (s, r.2)) (Placed env oldsz ph ∧ ph.Bare env file) (Placed env oldsz ph ∧ ph.Whole env file)
        fun r => r.2 = ph.vaddr + ph.memsz ∧ Image env file [ph] oldsz s r := by
  rw [show (ph.vaddr + ph.memsz) % 2 ^ 32 = ph.vaddr + ph.memsz from Nat.mod_eq_of_lt (hend.trans_lt (by decide))]
  have hplaced : Room env oldsz (ph.vaddr + ph.memsz) ↔ Placed env oldsz ph := ⟨fun hr => ⟨hfilesz, hr⟩, fun hp => hp.room⟩
  refine ((allocuvm_ends hold h (by omega)).bind (S := ph.Bare env file) (G := ph.Whole env file) ?_).congr
    (by rw [hplaced]; simp) (by rw [hplaced])
  rintro ⟨s₁, newsz⟩ ⟨hnew, hlt, hext⟩
  simp only at hnew hext
  have hpages : newsz ≤ pages newsz * 4096 := le_pages
  have hmono : pages oldsz * 4096 ≤ pages newsz * 4096 := pages_mono (by omega)
  have hbase : pages oldsz * 4096 ≤ ph.vaddr := pages_le haligned hle
  have hload : Ends (loaduvm s₁ ph.vaddr file ph.off ph.filesz) _ _ _ :=
    loaduvm_ends hfile hext.grown haligned (by rw [← hnew]; omega) hoff
  refine (hload.bind fun s₂ hs₂ => ends_ok ?_).congr (by simp [ProgHdr.Bare])
    (by simp [ProgHdr.Whole])
  obtain ⟨hg, hloaded, hkeep⟩ := hs₂
  rw [← hnew] at hext hg
  refine ⟨hnew, hg, by simp only; omega, fun va hva => ?_, fun q hq => ?_, fun q hq => ?_, hnew, by simp only; omega⟩
  · rw [hkeep va (by omega), hext.keep va hva]
  · rw [List.mem_singleton.1 hq]
    constructor
    · intro j hj
      exact hloaded j (Nat.zero_le _) hj
    · intro j h1 h2 hmap
      simp only
      rw [hkeep _ (by omega), hext.zero _ (by omega) (by omega) hmap]
  · rw [List.mem_singleton.1 hq]
    exact ⟨hfilesz, hnew.ge⟩

/-- The loop over the program headers comes to a page without a page table. -/
def HeadersBare (env : Env) (file : List UInt8) : ℕ → ℕ → ℕ → Prop
  | 0, _, _ => False
  | k + 1, off, sz =>
    match readi file off 32 with
    | none => False
    | some b =>
      b.length = 32 ∧
        if (proghdr b).type = ELF_PROG_LOAD then
          Placed env sz (proghdr b) ∧ (proghdr b).Bare env file ∨
            (Placed env sz (proghdr b) ∧ (proghdr b).Whole env file) ∧
              HeadersBare env file k ((off + 32) % 2 ^ 32) ((proghdr b).vaddr + (proghdr b).memsz)
        else HeadersBare env file k ((off + 32) % 2 ^ 32) sz

/-- The headers are all there, and every loadable segment has room, its bytes in the file and page tables for these. -/
def HeadersWhole (env : Env) (file : List UInt8) : ℕ → ℕ → ℕ → Prop
  | 0, _, _ => True
  | k + 1, off, sz =>
    match readi file off 32 with
    | none => False
    | some b =>
      b.length = 32 ∧
        if (proghdr b).type = ELF_PROG_LOAD then
          (Placed env sz (proghdr b) ∧ (proghdr b).Whole env file) ∧
            HeadersWhole env file k ((off + 32) % 2 ^ 32) ((proghdr b).vaddr + (proghdr b).memsz)
        else HeadersWhole env file k ((off + 32) % 2 ^ 32) sz

/-- A segment in front of those that follow. -/
lemma Image.cons {ph : ProgHdr} {segs : List ProgHdr} {r r₁ r₂ : Vm × ℕ} (hnew : r₁.2 = ph.vaddr + ph.memsz)
    (himg : Image env file [ph] r.2 r.1 r₁) (h₂ : Image env file segs r₁.2 r₁.1 r₂) :
    Image env file (ph :: segs) r.2 r.1 r₂ := by
  have hp : pages r.2 * 4096 ≤ pages r₁.2 * 4096 := pages_mono himg.le
  obtain ⟨hfilesz, hend⟩ := himg.ends ph (List.mem_singleton_self _)
  refine ⟨h₂.grown, h₂.lt, fun va hva => ?_, fun q hq => ?_, fun q hq => ?_, ?_, himg.le.trans h₂.le⟩
  · rw [h₂.keep va (hva.trans_le hp), himg.keep va hva]
  · rcases List.mem_cons.1 hq with rfl | hq
    · apply (himg.held _ (List.mem_singleton_self _)).congr _ hfilesz
      intro va hva
      apply h₂.keep
      exact hva.trans_le (hend.trans le_pages)
    · exact h₂.held q hq
  · rcases List.mem_cons.1 hq with rfl | hq
    · exact ⟨hfilesz, hend.trans h₂.le⟩
    · exact h₂.ends q hq
  · rw [imageEnd, List.foldl_cons, ← hnew]
    exact h₂.size

lemma segmentLoop_ends {k off : ℕ} {r : Vm × ℕ} (hfile : file.length < 2147483648) (h : Grown env r.1 (pages r.2))
    (hsz : r.2 < 2147483648) (hl : Loadable (segments file k off)) (hle : ∀ ph ∈ segments file k off, r.2 ≤ ph.vaddr) :
    Ends (segmentLoop env file k off r) (HeadersBare env file k off r.2) (HeadersWhole env file k off r.2)
      (Image env file (segments file k off) r.2 r.1) := by
  induction k generalizing off r with
  | zero =>
    apply ends_ok
    exact ⟨h, hsz, fun _ _ => rfl, fun ph hph => (by cases hph), fun ph hph => (by cases hph), rfl, le_rfl⟩
  | succ k ih =>
    unfold segmentLoop HeadersBare HeadersWhole
    unfold segments at hl hle ⊢
    cases hr : readi file off 32 with
    | none => exact ends_bad
    | some b =>
      rw [hr] at hl hle
      simp only at hl hle ⊢
      by_cases hlen : b.length = 32
      · rw [if_neg (by simpa using hlen)]
        simp only [hlen, true_and]
        by_cases ht : (proghdr b).type = ELF_PROG_LOAD
        · rw [if_neg (by simpa using ht)]
          simp only [if_pos ht] at hl hle ⊢
          by_cases hm : (proghdr b).memsz < (proghdr b).filesz
          · rw [if_pos hm]
            have hno : ¬ Placed env r.2 (proghdr b) := fun hp => absurd hp.fits (Nat.not_le_of_lt hm)
            exact ends_bad.congr (by simp [hno]) (by simp [hno])
          · rw [if_neg hm]
            have hself : proghdr b ∈ proghdr b :: segments file k ((off + 32) % 2 ^ 32) := List.mem_cons_self
            have hasc := List.pairwise_cons.1 hl.ascending
            have hseg := segment_ends hfile h hsz (hl.aligned _ hself) (hle _ hself) (Nat.le_of_not_lt hm) (word_lt b 4)
              (hl.below _ hself)
            have hrest : ∀ r₁ : Vm × ℕ,
                (r₁.2 = (proghdr b).vaddr + (proghdr b).memsz ∧ Image env file [proghdr b] r.2 r.1 r₁) →
                Ends (segmentLoop env file k ((off + 32) % 2 ^ 32) r₁)
                  (HeadersBare env file k ((off + 32) % 2 ^ 32) ((proghdr b).vaddr + (proghdr b).memsz))
                  (HeadersWhole env file k ((off + 32) % 2 ^ 32) ((proghdr b).vaddr + (proghdr b).memsz))
                  (Image env file (proghdr b :: segments file k ((off + 32) % 2 ^ 32)) r.2 r.1) := by
              rintro r₁ ⟨hnew, himg⟩
              have hrun := ih himg.grown himg.lt hl.tail fun ph hph => by rw [hnew]; exact hasc.1 ph hph
              rw [hnew] at hrun
              refine hrun.mono fun r₂ hr₂ => .cons hnew himg ?_
              rw [hnew]
              exact hr₂
            have hbind := hseg.bind hrest
            simp only [bind_assoc] at hbind
            exact hbind
        · rw [if_pos (by simpa using ht)]
          simp only [if_neg ht] at hl hle ⊢
          exact ih h hsz hl hle
      · rw [if_pos (by simpa using hlen)]
        exact ends_bad.congr (by simp [hlen]) (by simp [hlen])

end Exec

end Memory

end Os132

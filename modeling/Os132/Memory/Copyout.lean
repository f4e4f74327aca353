import Os132.Memory.Paging

/-!
# What `copyout` writes

`uva2ka` reads the entry that `walkpgdir` finds without a test that it found one. Where there is no page table
the entry is read at address 0 of the address space in use, and what stands there decides: an unmapped address
is a page fault, a word with `PTE_P` and `PTE_U` makes `copyout` write to the page it names. The kernel reaches
physical memory at `p2v` of its address, a 32-bit sum: an entry that names 2³¹ gives a null pointer, at which
`copyout` gives up, and one that names no physical memory gives an address of something else. Otherwise
`copyout` writes the bytes, or a prefix of them, to user pages of the directory.
-/

namespace Os132

namespace Memory

namespace Ram

/-- `p2v` -/
def p2v (a : ℕ) : ℕ := (a + KERNBASE) % 4294967296

/-- `uva2ka`; `outside` is the word at a kernel address where there is no physical memory, if it can be read. -/
def uva2ka (outside : ℕ → Option ℕ) (m : Ram) (pgdir uva : ℕ) : Option ℕ :=
  let pte :=
    match (m.walkpgdir pgdir uva false).2 with
    | some (pgtab, i) => if pgtab < PHYSTOP then some (m.word pgtab i) else outside (p2v pgtab + 4 * i)
    | none => outside 0
  pte.map fun pte => if ¬ Present pte then 0 else if ¬ User pte then 0 else p2v (PTE_ADDR pte)

/-- The loop of `copyout`: the stores to kernel addresses, in order, and the result. -/
def copyoutLoop (outside : ℕ → Option ℕ) (m : Ram) (pgdir : ℕ) : ℕ → ℕ → List UInt8 → Option (List (ℕ × UInt8) × ℤ)
  | 0, _, _ => none
  | fuel + 1, va, buf =>
    if 0 < buf.length then
      (uva2ka outside m pgdir (PGROUNDDOWN va)).bind fun pa0 =>
        if pa0 = 0 then some ([], -1)
        else
          let n := if buf.length < PGSIZE - (va - PGROUNDDOWN va) then buf.length else PGSIZE - (va - PGROUNDDOWN va)
          (copyoutLoop outside m pgdir fuel ((PGROUNDDOWN va + PGSIZE) % 4294967296) (buf.drop n)).map fun r =>
            ((List.range n).map (fun i => (pa0 + (va - PGROUNDDOWN va) + i, buf.getD i 0)) ++ r.1, r.2)
    else some ([], 0)

/-- Every pass copies a byte. -/
def copyout (outside : ℕ → Option ℕ) (m : Ram) (pgdir va : ℕ) (buf : List UInt8) : Option (List (ℕ × UInt8) × ℤ) :=
  copyoutLoop outside m pgdir (buf.length + 1) va buf

/-- There is a page table for `va`, in physical memory. -/
def Backed (m : Ram) (pgdir va : ℕ) : Prop :=
  Present (m.word pgdir (PDX va)) ∧ PTE_ADDR (m.word pgdir (PDX va)) < PHYSTOP

instance (m : Ram) (pgdir va : ℕ) : Decidable (m.Backed pgdir va) := inferInstanceAs (Decidable (_ ∧ _))

/-- The kernel's address of `va`, if its page is present, the user may access it and it is in physical memory. -/
def user (m : Ram) (pgdir va : ℕ) : Option ℕ :=
  if m.Backed pgdir va ∧ Present (m.pte pgdir va) ∧ User (m.pte pgdir va) ∧ PTE_ADDR (m.pte pgdir va) < PHYSTOP then
    some (p2v (PTE_ADDR (m.pte pgdir va)) + va % 4096)
  else none

/-- The stores are those of the first `k` bytes to user pages from `va` on. -/
structure Stores (m : Ram) (pgdir va : ℕ) (buf : List UInt8) (k : ℕ) (w : List (ℕ × UInt8)) : Prop where
  le : k ≤ buf.length
  user : ∀ t < k, (m.user pgdir ((va + t) % 4294967296)).isSome
  stores : w = (List.range k).map fun t => ((m.user pgdir ((va + t) % 4294967296)).getD 0, buf.getD t 0)

/-- All bytes were written, or a prefix of them and -1 returned. -/
def Copied (m : Ram) (pgdir va : ℕ) (buf : List UInt8) (w : List (ℕ × UInt8)) (r : ℤ) : Prop :=
  r = 0 ∧ Stores m pgdir va buf buf.length w ∨ r = -1 ∧ ∃ k < buf.length, Stores m pgdir va buf k w

/-- The entry that `uva2ka` reads for `va`. -/
def entry (outside : ℕ → Option ℕ) (m : Ram) (pgdir va : ℕ) : Option ℕ :=
  if m.Backed pgdir va then some (m.pte pgdir va)
  else if Present (m.word pgdir (PDX va)) then outside (p2v (PTE_ADDR (m.word pgdir (PDX va))) + 4 * PTX va)
  else outside 0

/-- The entry can be read, and makes `copyout` return -1 or belongs to a page table and names physical memory. -/
def Leads (outside : ℕ → Option ℕ) (m : Ram) (pgdir va : ℕ) : Prop :=
  ∃ e, entry outside m pgdir va = some e ∧
    (Present e ∧ User e → p2v (PTE_ADDR e) = 0 ∨ m.Backed pgdir va ∧ PTE_ADDR e < PHYSTOP)

/-- The entry of every byte that the copy comes to leads where it should. -/
def Covered (outside : ℕ → Option ℕ) (m : Ram) (pgdir va : ℕ) (buf : List UInt8) : Prop :=
  ∀ t < buf.length, (∀ u < t, (m.user pgdir ((va + u) % 4294967296)).isSome) → Leads outside m pgdir ((va + t) % 4294967296)

variable {m : Ram} {outside : ℕ → Option ℕ} {pgdir va pa0 fuel k n t : ℕ} {buf : List UInt8} {w : List (ℕ × UInt8)} {r : ℤ}

lemma pte_congr {x y : ℕ} (h : x / 4096 = y / 4096) : PDX x = PDX y ∧ PTX x = PTX y := by
  unfold PDX PTX
  omega

lemma backed_congr {x y : ℕ} (h : x / 4096 = y / 4096) : m.Backed pgdir x ↔ m.Backed pgdir y := by
  unfold Backed
  rw [(pte_congr h).1]

lemma user_congr {x y : ℕ} (h : x / 4096 = y / 4096) :
    m.user pgdir x =
      if m.Backed pgdir y ∧ Present (m.pte pgdir y) ∧ User (m.pte pgdir y) ∧ PTE_ADDR (m.pte pgdir y) < PHYSTOP then
        some (p2v (PTE_ADDR (m.pte pgdir y)) + x % 4096)
      else none := by
  have hpte : m.pte pgdir x = m.pte pgdir y := by
    unfold pte
    rw [(pte_congr h).1, (pte_congr h).2]
  unfold user
  simp only [hpte, backed_congr h]

lemma entry_congr {x y : ℕ} (h : x / 4096 = y / 4096) : entry outside m pgdir x = entry outside m pgdir y := by
  unfold entry pte
  simp only [backed_congr h, (pte_congr h).1, (pte_congr h).2]

lemma uva2ka_eq : uva2ka outside m pgdir va =
    (entry outside m pgdir va).map fun e => if Present e ∧ User e then p2v (PTE_ADDR e) else 0 := by
  have hite : ∀ e : ℕ, (if ¬ Present e then 0 else if ¬ User e then 0 else p2v (PTE_ADDR e)) =
      if Present e ∧ User e then p2v (PTE_ADDR e) else 0 := by
    intro e
    by_cases hp : Present e <;> by_cases hu : User e <;> simp [hp, hu]
  have hentry : (match (m.walkpgdir pgdir va false).2 with
      | some (pgtab, i) => if pgtab < PHYSTOP then some (m.word pgtab i) else outside (p2v pgtab + 4 * i)
      | none => outside 0) = entry outside m pgdir va := by
    unfold entry Backed pte
    by_cases h : Present (m.word pgdir (PDX va)) <;> simp [walkpgdir, h]
  unfold uva2ka
  simp only [hite]
  rw [← hentry]

lemma entry_of_user (h : (m.user pgdir va).isSome) : ∃ e, entry outside m pgdir va = some e ∧ Present e ∧ User e ∧
    m.Backed pgdir va ∧ PTE_ADDR e < PHYSTOP := by
  unfold user at h
  split_ifs at h with hok
  · exact ⟨_, if_pos hok.1, hok.2.1, hok.2.2.1, hok.1, hok.2.2.2⟩
  · cases h

lemma user_eq_none {e : ℕ} (he : entry outside m pgdir va = some e)
    (h : ¬ (Present e ∧ User e ∧ m.Backed pgdir va ∧ PTE_ADDR e < PHYSTOP)) : m.user pgdir va = none := by
  by_contra hno
  obtain ⟨e', he', hok⟩ : ∃ e', entry outside m pgdir va = some e' ∧ _ := entry_of_user (Option.isSome_iff_ne_none.2 hno)
  rw [he] at he'
  cases he'
  exact h hok

lemma p2v_pos {a : ℕ} (h : a < PHYSTOP) : p2v a ≠ 0 := by
  unfold p2v KERNBASE
  unfold PHYSTOP at h
  omega

lemma pass_count (hbuf : 0 < buf.length) :
    ∃ n, (if buf.length < PGSIZE - (va - PGROUNDDOWN va) then buf.length else PGSIZE - (va - PGROUNDDOWN va)) = n ∧
      0 < n ∧ n ≤ buf.length ∧ va % 4096 + n ≤ 4096 ∧ (n < buf.length → va % 4096 + n = 4096) := by
  refine ⟨_, rfl, ?_⟩
  unfold PGSIZE PGROUNDDOWN
  split_ifs <;> omega

/-- A pass and what follows. -/
lemma Stores.append {va' : ℕ} (hn : n ≤ buf.length) (huser : ∀ t < n, m.user pgdir ((va + t) % 4294967296) = some (pa0 + t))
    (hnext : ∀ t, n + t < buf.length → (va + (n + t)) % 4294967296 = (va' + t) % 4294967296) :
    Stores m pgdir va buf (n + k) ((List.range n).map (fun i => (pa0 + i, buf.getD i 0)) ++ w) ↔
      Stores m pgdir va' (buf.drop n) k w := by
  have hfirst : (List.range n).map (fun t => ((m.user pgdir ((va + t) % 4294967296)).getD 0, buf.getD t 0)) =
      (List.range n).map fun i => (pa0 + i, buf.getD i 0) := by
    apply List.map_congr_left
    intro t ht
    rw [huser t (List.mem_range.1 ht)]
    rfl
  have hrest (hk : n + k ≤ buf.length) :
      ((List.range k).map (n + ·)).map (fun t => ((m.user pgdir ((va + t) % 4294967296)).getD 0, buf.getD t 0)) =
        (List.range k).map fun t => ((m.user pgdir ((va' + t) % 4294967296)).getD 0, (buf.drop n).getD t 0) := by
    rw [List.map_map]
    apply List.map_congr_left
    intro t ht
    have htk := List.mem_range.1 ht
    simp [hnext t (by omega)]
  constructor
  · rintro ⟨hle, hu, hw⟩
    refine ⟨by rw [List.length_drop]; omega, fun t ht => ?_, ?_⟩
    · rw [← hnext t (by omega)]
      exact hu _ (by omega)
    · rw [List.range_add, List.map_append, hfirst, hrest hle] at hw
      exact List.append_cancel_left hw
  · rintro ⟨hle, hu, hw⟩
    rw [List.length_drop] at hle
    refine ⟨by omega, fun t ht => ?_, ?_⟩
    · by_cases htn : t < n
      · rw [huser t htn]
        rfl
      · obtain ⟨u, rfl⟩ : ∃ u, t = n + u := ⟨t - n, by omega⟩
        rw [hnext u (by omega)]
        exact hu u (by omega)
    · rw [List.range_add, List.map_append, hfirst, hrest (by omega), hw]

lemma Stores.nil : Stores m pgdir va buf 0 [] := ⟨Nat.zero_le _, fun t ht => absurd ht (Nat.not_lt_zero t), rfl⟩

lemma Stores.eq_nil (h : Stores m pgdir va buf k w) (hva : va < 4294967296) (hnot : m.user pgdir va = none) : w = [] := by
  have hk : k = 0 := by
    by_contra hk
    have h0 := h.user 0 (by omega)
    rw [Nat.add_zero, Nat.mod_eq_of_lt hva, hnot] at h0
    cases h0
  rw [h.stores, hk]
  rfl

lemma Copied.eq_nil (h : Copied m pgdir va buf w r) (hva : va < 4294967296) (hnot : m.user pgdir va = none) : w = [] := by
  rcases h with ⟨-, hs⟩ | ⟨-, k, -, hs⟩
  · exact hs.eq_nil hva hnot
  · exact hs.eq_nil hva hnot

lemma copied_stop (hbuf : 0 < buf.length) : Copied m pgdir va buf [] (-1) := Or.inr ⟨rfl, 0, hbuf, .nil⟩

lemma covered_of_none (hva : va < 4294967296) (hnot : m.user pgdir va = none) (h : Leads outside m pgdir va) :
    Covered outside m pgdir va buf := by
  intro t _ hbefore
  by_cases ht : t = 0
  · rwa [ht, Nat.add_zero, Nat.mod_eq_of_lt hva]
  · have h0 := hbefore 0 (by omega)
    rw [Nat.add_zero, Nat.mod_eq_of_lt hva, hnot] at h0
    cases h0

/-- The rest of a copy behind its first pass. -/
lemma covered_drop {va' : ℕ} (hn : n ≤ buf.length) (huser : ∀ t < n, m.user pgdir ((va + t) % 4294967296) = some (pa0 + t))
    (hnext : ∀ t, n + t < buf.length → (va + (n + t)) % 4294967296 = (va' + t) % 4294967296) :
    Covered outside m pgdir va buf ↔ Covered outside m pgdir va' (buf.drop n) := by
  constructor
  · intro h t ht hbefore
    rw [List.length_drop] at ht
    rw [← hnext t (by omega)]
    refine h (n + t) (by omega) fun u hu => ?_
    by_cases hun : u < n
    · rw [huser u hun]
      rfl
    · obtain ⟨v, rfl⟩ : ∃ v, u = n + v := ⟨u - n, by omega⟩
      rw [hnext v (by omega)]
      exact hbefore v (by omega)
  · intro h t ht hbefore
    by_cases htn : t < n
    · obtain ⟨e, he, -, -, htab, hin⟩ : ∃ e, entry outside m pgdir ((va + t) % 4294967296) = some e ∧ _ :=
        entry_of_user (by rw [huser t htn]; rfl)
      exact ⟨e, he, fun _ => Or.inr ⟨htab, hin⟩⟩
    · obtain ⟨v, rfl⟩ : ∃ v, t = n + v := ⟨t - n, by omega⟩
      rw [hnext v ht]
      refine h v (by rw [List.length_drop]; omega) fun u hu => ?_
      rw [← hnext u (by omega)]
      exact hbefore _ (by omega)

/-- The copy is right exactly if the rest of it is. -/
lemma copied_drop {va' : ℕ} (hn : n ≤ buf.length) (huser : ∀ t < n, m.user pgdir ((va + t) % 4294967296) = some (pa0 + t))
    (hnext : ∀ t, n + t < buf.length → (va + (n + t)) % 4294967296 = (va' + t) % 4294967296) :
    Copied m pgdir va buf ((List.range n).map (fun i => (pa0 + i, buf.getD i 0)) ++ w) r ↔
      Copied m pgdir va' (buf.drop n) w r := by
  have hlen : n + (buf.drop n).length = buf.length := by
    rw [List.length_drop]
    omega
  have happend (k : ℕ) := Stores.append (k := k) (w := w) hn huser hnext
  unfold Copied
  apply or_congr
  · apply and_congr_right'
    rw [← happend, hlen]
  · apply and_congr_right'
    constructor
    · rintro ⟨k, hk, hs⟩
      -- the bytes of the pass are among the first `k`
      have hkn : n ≤ k := by
        have hw := congrArg List.length hs.stores
        simp only [List.length_append, List.length_map, List.length_range] at hw
        omega
      obtain ⟨j, rfl⟩ : ∃ j, k = n + j := ⟨k - n, by omega⟩
      exact ⟨j, by omega, (happend j).1 hs⟩
    · rintro ⟨k, hk, hs⟩
      exact ⟨n + k, by omega, (happend k).2 hs⟩

/-- A pass that stores somewhere where the user may not write. -/
lemma copyoutLoop_strays (hva : va < 4294967296) (hbuf : 0 < buf.length) (hnot : m.user pgdir va = none)
    (hka : uva2ka outside m pgdir (PGROUNDDOWN va) = some pa0) (h0 : pa0 ≠ 0) :
    ¬ ∃ w r, copyoutLoop outside m pgdir (fuel + 1) va buf = some (w, r) ∧ Copied m pgdir va buf w r := by
  rintro ⟨w, r, hcall, hc⟩
  obtain ⟨n, hcount, hpos, -⟩ := @pass_count va buf hbuf
  rw [copyoutLoop, if_pos hbuf, hka, Option.bind_some, if_neg h0] at hcall
  dsimp only at hcall
  rw [Option.map_eq_some_iff, hcount] at hcall
  obtain ⟨q, -, heq⟩ := hcall
  have hw := hc.eq_nil hva hnot
  rw [Prod.mk.injEq, hw, List.append_eq_nil_iff, List.map_eq_nil_iff, List.range_eq_nil] at heq
  omega

/-- One pass of the loop decides, or hands the question on to the next one. -/
lemma copyoutLoop_iff (hva : va < 4294967296) (hfuel : buf.length < fuel) :
    (∃ w r, copyoutLoop outside m pgdir fuel va buf = some (w, r) ∧ Copied m pgdir va buf w r) ↔
      Covered outside m pgdir va buf := by
  induction fuel generalizing va buf with
  | zero => omega
  | succ fuel ih =>
    by_cases hbuf : 0 < buf.length
    swap
    · have hnil : buf = [] := List.eq_nil_of_length_eq_zero (by omega)
      subst hnil
      refine iff_of_true ⟨[], 0, by rw [copyoutLoop, if_neg hbuf], Or.inl ⟨rfl, .nil⟩⟩ fun t ht => ?_
      exact absurd ht (Nat.not_lt_zero t)
    have hpage : PGROUNDDOWN va / 4096 = va / 4096 := by
      unfold PGROUNDDOWN
      omega
    have hka : uva2ka outside m pgdir (PGROUNDDOWN va) = _ := uva2ka_eq
    rw [entry_congr hpage] at hka
    have hfirst : Covered outside m pgdir va buf → Leads outside m pgdir va := by
      intro h
      have h0 := h 0 hbuf fun u hu => absurd hu (Nat.not_lt_zero u)
      rwa [Nat.add_zero, Nat.mod_eq_of_lt hva] at h0
    cases he : entry outside m pgdir va with
    | none =>
      -- a page fault in the kernel
      rw [he] at hka
      refine iff_of_false ?_ fun h => ?_
      · rintro ⟨w, r, hcall, -⟩
        rw [copyoutLoop, if_pos hbuf, hka] at hcall
        cases hcall
      · obtain ⟨e, he', -⟩ := hfirst h
        rw [he] at he'
        cases he'
    | some e =>
      rw [he, Option.map_some] at hka
      by_cases hpu : Present e ∧ User e
      swap
      · rw [if_neg hpu] at hka
        have hnot : m.user pgdir va = none := user_eq_none he fun h => hpu ⟨h.1, h.2.1⟩
        refine iff_of_true ⟨[], -1, ?_, copied_stop hbuf⟩ (covered_of_none hva hnot ⟨e, he, fun h => absurd h hpu⟩)
        rw [copyoutLoop, if_pos hbuf, hka]
        rfl
      rw [if_pos hpu] at hka
      by_cases hok : m.Backed pgdir va ∧ PTE_ADDR e < PHYSTOP
      · have hback : m.Backed pgdir (PGROUNDDOWN va) := (backed_congr hpage).2 hok.1
        have hpte : e = m.pte pgdir (PGROUNDDOWN va) := by
          rw [← entry_congr hpage, entry, if_pos hback] at he
          exact (Option.some.inj he).symm
        have hcond : m.Backed pgdir (PGROUNDDOWN va) ∧ Present (m.pte pgdir (PGROUNDDOWN va)) ∧
            User (m.pte pgdir (PGROUNDDOWN va)) ∧ PTE_ADDR (m.pte pgdir (PGROUNDDOWN va)) < PHYSTOP := by
          rw [← hpte]
          exact ⟨hback, hpu.1, hpu.2, hok.2⟩
        obtain ⟨n, hcount, hpos, hn, hfit, hfull⟩ := @pass_count va buf hbuf
        rw [copyoutLoop, if_pos hbuf, hka, Option.bind_some, if_neg (p2v_pos hok.2)]
        dsimp only
        rw [hcount]
        have hoff : va - PGROUNDDOWN va = va % 4096 := by
          unfold PGROUNDDOWN
          omega
        rw [hoff]
        have huser : ∀ t < n, m.user pgdir ((va + t) % 4294967296) = some (p2v (PTE_ADDR e) + va % 4096 + t) := by
          intro t ht
          have h32 : (va + t) % 4294967296 = va + t := by omega
          have hmod : (va + t) % 4096 = va % 4096 + t := by
            clear hoff h32
            omega
          rw [h32, user_congr (y := PGROUNDDOWN va) (by rw [hpage]; omega), if_pos hcond, hmod, hpte, Nat.add_assoc]
        have hnext : ∀ t, n + t < buf.length →
            (va + (n + t)) % 4294967296 = ((PGROUNDDOWN va + PGSIZE) % 4294967296 + t) % 4294967296 := by
          intro t ht
          have := hfull (by omega)
          unfold PGROUNDDOWN PGSIZE
          omega
        have hrest := @ih ((PGROUNDDOWN va + PGSIZE) % 4294967296) (buf.drop n) (Nat.mod_lt _ (by decide))
          (by rw [List.length_drop]; omega)
        rw [covered_drop hn huser hnext, ← hrest]
        constructor
        · rintro ⟨w, r, hcall, hc⟩
          rw [Option.map_eq_some_iff] at hcall
          obtain ⟨⟨w', r'⟩, hcall, heq⟩ := hcall
          cases heq
          exact ⟨w', r', hcall, (copied_drop hn huser hnext).1 hc⟩
        · rintro ⟨w, r, hcall, hc⟩
          rw [hcall]
          exact ⟨_, r, rfl, (copied_drop hn huser hnext).2 hc⟩
      · have hnot : m.user pgdir va = none := user_eq_none he fun h => hok h.2.2
        by_cases h0 : p2v (PTE_ADDR e) = 0
        · refine iff_of_true ⟨[], -1, ?_, copied_stop hbuf⟩ (covered_of_none hva hnot ⟨e, he, fun _ => Or.inl h0⟩)
          rw [copyoutLoop, if_pos hbuf, hka, Option.bind_some, if_pos h0]
        · refine iff_of_false (copyoutLoop_strays hva hbuf hnot hka h0) fun h => ?_
          obtain ⟨e', he', hleads⟩ := hfirst h
          rw [he] at he'
          cases he'
          rcases hleads hpu with hz | hin
          · exact h0 hz
          · exact hok hin

/-- **When `copyout` writes only user memory**: it returns 0 having written all bytes to user pages, or -1 having
written a prefix, exactly if the entry of every byte it comes to, or the word at address 0 in its place, can be
read and is not that of a user page, or becomes a null pointer, or is an entry of a page in physical memory. -/
theorem copyout_copied_iff (hva : va < 4294967296) :
    (∃ w r, copyout outside m pgdir va buf = some (w, r) ∧ Copied m pgdir va buf w r) ↔ Covered outside m pgdir va buf :=
  copyoutLoop_iff hva (Nat.lt_succ_self _)

/-- A directory without page tables. -/
def noTables : Ram := ⟨fun _ _ => 0, fun _ _ => 0, []⟩

lemma missing_noTables {i : ℕ} : ¬ Present (noTables.word 4096 i) := by
  change ¬ Present 0
  decide

/-- One page table, of which only the last entry is that of a page. -/
def lastPage : Ram where
  word f i := if f = 4096 ∧ i = 0 then 0x2007 else if f = 0x2000 ∧ i = 1023 then 0x3007 else 0
  bytes _ _ := 0
  free := []

/-- The first byte goes to the last page. Where the second one should go there is no page table, and the word at
address 0 names 2³¹. -/
theorem copyout_copied_iff_lastPage :
    ∃ w r, copyout (fun _ => some 0x80000007) lastPage 4096 0x3FFFFF [104, 105] = some (w, r) ∧
      Copied lastPage 4096 0x3FFFFF [104, 105] w r := by
  refine (copyout_copied_iff (by decide)).2 fun t ht _ => ?_
  have hcases : t = 0 ∨ t = 1 := by
    simp only [List.length_cons, List.length_nil] at ht
    omega
  rcases hcases with rfl | rfl
  · exact ⟨0x3007, by decide +kernel, fun _ => Or.inr (by decide +kernel)⟩
  · exact ⟨0x80000007, by decide +kernel, fun _ => Or.inl (by decide)⟩

/-- A program whose first word is 0x100007: the byte goes to the first page of the kernel. -/
theorem copyout_through_null : ¬ ∀ (outside : ℕ → Option ℕ) (m : Ram) (pgdir va : ℕ) (buf : List UInt8), va < 4294967296 →
    ∃ w r, copyout outside m pgdir va buf = some (w, r) ∧ Copied m pgdir va buf w r := by
  intro h
  obtain ⟨w, r, hcall, hc⟩ := h (fun _ => some 0x100007) noTables 4096 0x8E000000 [104] (by decide)
  have hnot : noTables.user 4096 0x8E000000 = none := if_neg fun hc => missing_noTables hc.1.1
  have hw := hc.eq_nil (by decide) hnot
  have hstore : (copyout (fun _ => some 0x100007) noTables 4096 0x8E000000 [104]).map Prod.fst = some [(0x80100000, 104)] := by
    decide +kernel
  rw [hcall, hw] at hstore
  cases hstore

end Ram

end Memory

end Os132

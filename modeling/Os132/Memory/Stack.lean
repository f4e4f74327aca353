import Os132.Memory.Segments

/-!
# The stack of a new image

Where `exec` puts the arguments and the frame of `main`, why `copyout` stops what does not fit, and when `exec`
keeps its promise: a page that `allocuvm` has passed over, or an address for which there is no page table, must not
be where a segment or an argument comes to.
-/

namespace Os132

namespace Memory

namespace Exec

variable {env : Env} {s s' s₁ : Vm} {n p o va : ℕ} {src file : List UInt8}

/-! ### The stack -/

/-- The process can access page `p` of an image whose guard page is page `n`. -/
def Open (env : Env) (n p : ℕ) : Prop := p < n + 2 ∧ p ≠ n ∧ Maps env p

/-- There is no page table for page `p`. -/
def Untabled (env : Env) (n p : ℕ) : Prop := p < 524288 ∧ ¬ Tabled env (n + 2) p ∨ 581632 ≤ p ∧ p < 1040384

/-- The stack page is page `n + 1`, below it is the guard page. -/
structure Stacked (env : Env) (s : Vm) (n : ℕ) : Prop where
  le : n + 2 ≤ 524288
  user : ∀ p, p < 1048576 → ((s.page p).any Page.user = true ↔ Open env n p)
  table : ∀ p, p < 1048576 → (s.table (p / 1024) = true ↔ ¬ Untabled env n p)
  guarded : Tabled env (n + 2) n

lemma Stacked.write (h : Stacked env s n) : Stacked env (s.write p o src) n := by
  constructor
  · exact h.le
  · intro q hq
    rw [write_page]
    exact h.user q hq
  · exact h.table
  · exact h.guarded

lemma Open.not_untabled (h : Open env n p) (hn : n + 2 ≤ 524288) : ¬ Untabled env n p := by
  obtain ⟨hlt, -, hmap⟩ := h
  have htab : Tabled env (n + 2) p := hmap.mono hlt
  rintro (⟨-, hno⟩ | ⟨hge, -⟩)
  · exact hno htab
  · omega

/-- Bytes from `va` on run into a page without a page table. -/
def Gaps (env : Env) (n va len : ℕ) : Prop :=
  ∃ q, va / 4096 ≤ q ∧ q * 4096 < va + len ∧ (∀ p, va / 4096 ≤ p → p < q → Open env n p) ∧ Untabled env n q

variable {null : Bool} {buf : List UInt8} {fuel g sp : ℕ} {args : List (List UInt8)} {ptrs : List ℕ}

/-- `copyout` within a page of the process. -/
lemma copyout_page (ht : s.table (p / 1024) = true) (hu : (s.page p).any Page.user = true) (h0 : 0 < buf.length)
    (hva : p * 4096 ≤ va) (hend : va + buf.length ≤ (p + 1) * 4096) :
    copyout null s va buf = .ok (s.write p (va % 4096) buf) := by
  obtain ⟨fuel, hfuel⟩ : ∃ fuel, buf.length = fuel + 1 := ⟨buf.length - 1, by omega⟩
  have hpage : va / PGSIZE = p := by
    unfold PGSIZE
    omega
  have hmin : min (PGSIZE - va % PGSIZE) buf.length = buf.length := by
    unfold PGSIZE
    omega
  have hne : buf ≠ [] := List.ne_nil_of_length_pos h0
  have ht' : s.table (p / NPTENTRIES) = true := ht
  unfold copyout
  rw [hfuel]
  unfold copyLoop
  rw [if_neg hne]
  dsimp only
  rw [hpage, if_pos ht', if_pos hu, hmin, List.drop_length, List.take_length]
  unfold copyLoop
  rw [if_pos rfl]
  rfl

/-- `copyout` that comes to a page which the process cannot access. -/
lemma copyLoop_stops (hbefore : ∀ p, va / 4096 ≤ p → p < g → s.table (p / 1024) = true ∧ (s.page p).any Page.user = true)
    (hg : ¬ (s.page g).any Page.user = true) (hlt : g < 1048576) (hva : va / 4096 ≤ g) (h0 : 0 < buf.length)
    (hend : g * 4096 < va + buf.length) (hfuel : buf.length < fuel) :
    copyLoop null fuel va buf s = if s.table (g / 1024) = true then .error .bad
      else if null = true then .error .panic else .error .bad := by
  induction fuel generalizing va buf s with
  | zero => omega
  | succ fuel ih =>
    have hne : buf ≠ [] := List.ne_nil_of_length_pos h0
    unfold copyLoop
    rw [if_neg hne]
    dsimp only
    rcases Nat.eq_or_lt_of_le hva with heq | hmore
    · subst heq
      rw [if_neg (show ¬ (s.page (va / PGSIZE)).any Page.user = true from hg)]
      rfl
    · obtain ⟨ht, hu⟩ := hbefore (va / 4096) le_rfl hmore
      rw [if_pos (show s.table (va / PGSIZE / NPTENTRIES) = true from ht),
        if_pos (show (s.page (va / PGSIZE)).any Page.user = true from hu)]
      have hle : (va / 4096 + 1) * 4096 ≤ g * 4096 := Nat.mul_le_mul_right 4096 (by omega)
      have hin : (va / 4096 + 1) * 4096 < 2 ^ 32 := by
        have hg' : g * 4096 < 2 ^ 32 := by omega
        exact hle.trans_lt hg'
      have hnext : (va / PGSIZE + 1) * PGSIZE % 2 ^ 32 = (va / 4096 + 1) * 4096 := Nat.mod_eq_of_lt hin
      have hsome : (va / 4096 + 1) * 4096 < va + buf.length := hle.trans_lt hend
      have hmin : min (PGSIZE - va % PGSIZE) buf.length = 4096 - va % 4096 := by
        unfold PGSIZE
        omega
      rw [hnext, hmin]
      have hlen : (buf.drop (4096 - va % 4096)).length = buf.length - (4096 - va % 4096) := List.length_drop
      have hrest : (va / 4096 + 1) * 4096 + (buf.length - (4096 - va % 4096)) = va + buf.length := by omega
      apply ih
      · intro p h1 h2
        rw [write_page]
        exact hbefore p (by omega) h2
      · rw [write_page]
        exact hg
      · omega
      · rw [hlen]
        omega
      · rw [hlen, hrest]
        exact hend
      · rw [hlen]
        omega

lemma first_closed (hva : va / 4096 ≤ g) (hg : ¬ Open env n g) :
    ∃ q, va / 4096 ≤ q ∧ q ≤ g ∧ ¬ Open env n q ∧ ∀ p, va / 4096 ≤ p → p < q → Open env n p := by
  classical
  have hex : ∃ q, va / 4096 ≤ q ∧ ¬ Open env n q := ⟨g, hva, hg⟩
  refine ⟨Nat.find hex, (Nat.find_spec hex).1, Nat.find_le ⟨hva, hg⟩, (Nat.find_spec hex).2, fun p h1 h2 => ?_⟩
  by_contra hno
  exact Nat.find_min hex h2 ⟨h1, hno⟩

/-- Bytes on whose way there is a page that the process cannot access. -/
lemma copyout_blocked {post : Vm → Prop} (h : Stacked env s n) (hva : va / 4096 ≤ g) (hend : g * 4096 < va + buf.length)
    (hlt : g < 1048576) (hg : ¬ Open env n g) (h0 : 0 < buf.length) :
    Ends (copyout null s va buf) (null = true ∧ Gaps env n va buf.length) False post := by
  have hn := h.le
  obtain ⟨q, hq, hqg, hclosed, hopen⟩ := first_closed hva hg
  have hqend : q * 4096 < va + buf.length := (Nat.mul_le_mul_right 4096 hqg).trans_lt hend
  have hbefore : ∀ p, va / 4096 ≤ p → p < q → s.table (p / 1024) = true ∧ (s.page p).any Page.user = true := by
    intro p h1 h2
    have hp := hopen p h1 h2
    exact ⟨(h.table p (by omega)).2 (hp.not_untabled hn), (h.user p (by omega)).2 hp⟩
  have hno : ¬ (s.page q).any Page.user = true := fun hu => hclosed ((h.user q (by omega)).1 hu)
  have hgaps : Gaps env n va buf.length ↔ Untabled env n q := by
    constructor
    · rintro ⟨t, h1, h2, h3, h4⟩
      rcases Nat.lt_trichotomy t q with htq | rfl | htq
      · exact absurd h4 ((hopen t h1 htq).not_untabled hn)
      · exact h4
      · exact absurd (h3 q hq htq) hclosed
    · intro hu
      exact ⟨q, hq, hqend, hopen, hu⟩
  unfold copyout
  rw [copyLoop_stops hbefore hno (by omega) hq h0 hqend (Nat.lt_succ_self _)]
  have htab := h.table q (by omega)
  by_cases ht : s.table (q / 1024) = true
  · rw [if_pos ht]
    exact ends_bad.congr (iff_of_false id fun ⟨_, hgap⟩ => htab.1 ht (hgaps.1 hgap)) Iff.rfl
  · have hu : Untabled env n q := by
      by_contra hu
      exact ht (htab.2 hu)
    rw [if_neg ht]
    by_cases hnull : null = true
    · rw [if_pos hnull]
      exact ends_panic.congr (iff_of_true trivial ⟨hnull, hgaps.2 hu⟩) Iff.rfl
    · rw [if_neg hnull]
      exact ends_bad.congr (iff_of_false id fun ⟨ht, _⟩ => hnull ht) Iff.rfl

/-- The bytes that an argument takes on the stack. -/
def room (a : List UInt8) : ℕ := (a.length + 4) / 4 * 4

def size : List (List UInt8) → ℕ
  | [] => 0
  | a :: args => room a + size args

/-- Where the arguments are. -/
def places : ℕ → List (List UInt8) → List ℕ
  | _, [] => []
  | sp, a :: args => (sp - room a) :: places (sp - room a) args

/-- Where `exec` copies to: into the stack page, from below it into it, or behind the kernel's memory. -/
def Aimed (n va len : ℕ) : Prop :=
  (n + 1) * 4096 ≤ va ∧ va + len ≤ (n + 2) * 4096 ∨ va < (n + 1) * 4096 ∧ n * 4096 < va + len ∨
    0x8E000000 ≤ va ∧ va < 4294967296

/-- Bytes in the stack page. -/
structure Put (env : Env) (n va : ℕ) (buf : List UInt8) (s s' : Vm) : Prop where
  stacked : Stacked env s' n
  inside : (n + 1) * 4096 ≤ va ∧ va + buf.length ≤ (n + 2) * 4096 ∧ Maps env (n + 1)
  held : Holds s' va buf
  keep : ∀ x, x < va ∨ va + buf.length ≤ x → s'.get x = s.get x

lemma copyout_ends (h : Stacked env s n) (h0 : 0 < buf.length) (hva : Aimed n va buf.length) :
    Ends (copyout null s va buf) (null = true ∧ Gaps env n va buf.length)
      ((n + 1) * 4096 ≤ va ∧ va + buf.length ≤ (n + 2) * 4096 ∧ Maps env (n + 1)) (Put env n va buf s) := by
  have hle := h.le
  rcases hva with ⟨h1, h2⟩ | ⟨h1, h2⟩ | ⟨h1, h2⟩
  · by_cases hmap : Maps env (n + 1)
    · have hopen : Open env n (n + 1) := ⟨by omega, by omega, hmap⟩
      have ht := (h.table (n + 1) (by omega)).2 (hopen.not_untabled hle)
      have hu := (h.user (n + 1) (by omega)).2 hopen
      rw [copyout_page ht hu h0 h1 h2]
      have hput : Put env n va buf s (s.write (n + 1) (va % 4096) buf) := by
        refine ⟨h.write, ⟨h1, h2, hmap⟩, fun j b hb => ?_, fun x hx => ?_⟩
        · have hj : j < buf.length := (List.getElem?_eq_some_iff.1 hb).1
          apply get_write_self hu
          · omega
          · omega
          · rw [← hb]
            congr 1
            omega
        · apply get_write_of_ne
          omega
      refine (ends_ok hput).congr (iff_of_false id ?_) (iff_of_true trivial ⟨h1, h2, hmap⟩)
      rintro ⟨-, q, hq, hend, -, hgap⟩
      have heq : q = n + 1 := by omega
      rw [heq] at hgap
      exact hopen.not_untabled hle hgap
    · have hclosed : ¬ Open env n (n + 1) := fun ho => hmap ho.2.2
      exact (copyout_blocked h (by omega) (by omega) (by omega) hclosed h0).congr Iff.rfl
        (iff_of_false id fun hin => hmap hin.2.2)
  · have hclosed : ¬ Open env n n := fun ho => ho.2.1 rfl
    exact (copyout_blocked h (by omega) h2 (by omega) hclosed h0).congr Iff.rfl (iff_of_false id fun hin => by omega)
  · have hclosed : ¬ Open env n (va / 4096) := fun ho => by
      have hlt := ho.1
      omega
    exact (copyout_blocked h le_rfl (by omega) (by omega) hclosed h0).congr Iff.rfl (iff_of_false id fun hin => by omega)

/-- An argument is copied to where the kernel has no page table, when those before it are in place. -/
def Strays (env : Env) (n : ℕ) : ℕ → List (List UInt8) → Prop
  | _, [] => False
  | sp, a :: args => Gaps env n ((sp + 4294967296 - room a) % 4294967296) (a.length + 1) ∨
      ((n + 1) * 4096 + room a ≤ sp ∧ Maps env (n + 1)) ∧ Strays env n (sp - room a) args

/-- The arguments have been pushed from `sp` down. -/
structure Pushed (env : Env) (n sp : ℕ) (args : List (List UInt8)) (ptrs : List ℕ) (s : Vm) (r : Vm × ℕ × List ℕ) : Prop where
  stacked : Stacked env r.1 n
  fits : (n + 1) * 4096 + size args ≤ sp
  esp : r.2.1 = sp - size args
  pointers : r.2.2 = ptrs ++ places sp args
  held : ∀ (k : ℕ) (a : List UInt8) (q : ℕ), args[k]? = some a → (places sp args)[k]? = some q → Holds r.1 q (a ++ [0])
  keep : ∀ x, x < r.2.1 ∨ sp ≤ x → r.1.get x = s.get x

lemma Pushed.nil (h : Stacked env s n) (hsp : (n + 1) * 4096 ≤ sp) : Pushed env n sp [] ptrs s (s, sp, ptrs) := by
  constructor
  case stacked => exact h
  case fits =>
    rw [size, Nat.add_zero]
    exact hsp
  case esp => rfl
  case pointers => exact (List.append_nil ptrs).symm
  case held =>
    intro k a q ha
    cases ha
  case keep =>
    intro x _
    rfl

/-- An argument in front of those that follow. -/
lemma Pushed.cons {a : List UInt8} {r : Vm × ℕ × List ℕ} (ha : room a ≤ sp) (hheld : Holds s₁ (sp - room a) (a ++ [0]))
    (hkeep : ∀ x, x < sp - room a ∨ sp ≤ x → s₁.get x = s.get x)
    (h : Pushed env n (sp - room a) args (ptrs ++ [sp - room a]) s₁ r) : Pushed env n sp (a :: args) ptrs s r := by
  have hfits := h.fits
  have hsp := h.esp
  constructor
  case stacked => exact h.stacked
  case fits =>
    rw [size]
    omega
  case esp =>
    rw [hsp, size]
    omega
  case pointers => rw [h.pointers, places, List.append_assoc, List.singleton_append]
  case held =>
    intro k b q hb hq
    cases k with
    | zero =>
      cases hb
      cases hq
      intro j c hc
      rw [h.keep _ (Or.inr (Nat.le_add_right _ _))]
      exact hheld j c hc
    | succ k => exact h.held k b q hb hq
  case keep =>
    intro x hx
    rw [h.keep x (by omega), hkeep x (by omega)]

lemma room_bounds (a : List UInt8) : a.length + 1 ≤ room a ∧ room a ≤ a.length + 4 ∧ room a % 4 = 0 := by
  unfold room
  omega

lemma push_sp {a : List UInt8} (h4 : sp % 4 = 0) (hsp : sp < 4294967296) (ha : room a ≤ sp + 4294967296)
    (hlen : a.length + 1 < 4294967296) :
    (sp + 2 ^ 32 - (a.length + 1) % 2 ^ 32) % 2 ^ 32 / 4 * 4 = (sp + 4294967296 - room a) % 4294967296 := by
  unfold room at ha ⊢
  rw [show (a.length + 1) % 2 ^ 32 = a.length + 1 from Nat.mod_eq_of_lt hlen]
  generalize a.length = len at *
  omega

/-- Arguments lie in physical memory before they are copied. -/
def Stored (args : List (List UInt8)) : Prop := ∀ a ∈ args, a.length < PHYSTOP

lemma fits_cons {base r t : ℕ} : base + (r + t) ≤ sp ↔ base + r ≤ sp ∧ base + t ≤ sp - r := by omega

lemma pushLoop_ends (h : Stacked env s n) (hsp : (n + 1) * 4096 ≤ sp) (hend : sp ≤ (n + 2) * 4096) (h4 : sp % 4 = 0)
    (hmax : ptrs.length + args.length < 32) (hstored : Stored args) :
    Ends (pushLoop null args s sp ptrs) (null = true ∧ Strays env n sp args)
      ((n + 1) * 4096 + size args ≤ sp ∧ (args ≠ [] → Maps env (n + 1))) (Pushed env n sp args ptrs s) := by
  induction args generalizing s sp ptrs with
  | nil =>
    refine (ends_ok (.nil h hsp)).congr (iff_of_false id ?_) (iff_of_true trivial ⟨?_, fun hne => absurd rfl hne⟩)
    · rintro ⟨-, hno⟩
      exact hno
    · rw [size, Nat.add_zero]
      exact hsp
  | cons a args ih =>
    have hle := h.le
    have hr := room_bounds a
    have hin : a.length < 234881024 := hstored a List.mem_cons_self
    have hlen : (a ++ [0]).length = a.length + 1 := List.length_append
    have hpos : 0 < (a ++ [0]).length := by omega
    rw [List.length_cons] at hmax
    unfold pushLoop
    rw [if_neg (by unfold MAXARG; omega)]
    dsimp only
    rw [push_sp h4 (by omega) (by omega) (by omega)]
    obtain ⟨va, hva⟩ : ∃ va, va = (sp + 4294967296 - room a) % 4294967296 := ⟨_, rfl⟩
    rw [← hva]
    have haim : Aimed n va (a ++ [0]).length := by
      unfold Aimed
      rw [hlen]
      omega
    have hfit : (n + 1) * 4096 ≤ va ∧ va + (a ++ [0]).length ≤ (n + 2) * 4096 ∧ Maps env (n + 1) ↔
        (n + 1) * 4096 + room a ≤ sp ∧ Maps env (n + 1) := by
      rw [hlen, ← and_assoc]
      refine and_congr_left fun _ => ?_
      omega
    have hrest : ∀ s₁, Put env n va (a ++ [0]) s s₁ → Ends (pushLoop null args s₁ va (ptrs ++ [va]))
        (null = true ∧ Strays env n (sp - room a) args)
        ((n + 1) * 4096 + size args ≤ sp - room a ∧ (args ≠ [] → Maps env (n + 1))) (Pushed env n sp (a :: args) ptrs s) := by
      intro s₁ hput
      obtain ⟨hsp', hmap⟩ := hfit.1 hput.inside
      have hva' : va = sp - room a := by omega
      clear hva haim hfit
      subst hva'
      have hlen' : (ptrs ++ [sp - room a]).length + args.length < 32 := by
        rw [List.length_append, List.length_singleton]
        omega
      have hrun : Ends (pushLoop null args s₁ (sp - room a) (ptrs ++ [sp - room a]))
          (null = true ∧ Strays env n (sp - room a) args)
          ((n + 1) * 4096 + size args ≤ sp - room a ∧ (args ≠ [] → Maps env (n + 1)))
          (Pushed env n (sp - room a) args (ptrs ++ [sp - room a]) s₁) :=
        ih hput.stacked (Nat.le_sub_of_add_le hsp') ((Nat.sub_le _ _).trans hend) (by omega) hlen' fun b hb => hstored b (List.mem_cons_of_mem _ hb)
      refine hrun.mono fun r hr' => Pushed.cons (by omega) hput.held (fun x hx => hput.keep x ?_) hr'
      omega
    refine ((copyout_ends h hpos haim).bind hrest).congr ?_ ?_
    · rw [hfit, hlen, Strays, ← hva]
      clear hva haim hfit hrest
      constructor
      · rintro (⟨hnull, hgap⟩ | ⟨hin, hnull, hst⟩)
        · exact ⟨hnull, Or.inl hgap⟩
        · exact ⟨hnull, Or.inr ⟨hin, hst⟩⟩
      · rintro ⟨hnull, hgap | ⟨hin, hst⟩⟩
        · exact Or.inl ⟨hnull, hgap⟩
        · exact Or.inr ⟨hin, hnull, hst⟩
    · rw [hfit, size]
      rw [fits_cons]
      constructor
      · rintro ⟨⟨h1, hmap⟩, h2, -⟩
        exact ⟨⟨h1, h2⟩, fun _ => hmap⟩
      · rintro ⟨⟨h1, h2⟩, hmap⟩
        have hmap' := hmap (List.cons_ne_nil _ _)
        exact ⟨⟨h1, hmap'⟩, h2, fun _ => hmap'⟩

lemma length_places : (places sp args).length = args.length := by
  induction args generalizing sp with
  | nil => rfl
  | cons a args ih => rw [places, List.length_cons, ih, List.length_cons]

lemma size_take_mono {j k : ℕ} (h : j ≤ k) : size (args.take j) ≤ size (args.take k) := by
  induction args generalizing j k with
  | nil => rw [List.take_nil, List.take_nil]
  | cons a args ih =>
    cases j with
    | zero => exact Nat.zero_le _
    | succ j =>
      cases k with
      | zero => omega
      | succ k =>
        have hle := ih (Nat.le_of_succ_le_succ h)
        rw [List.take_succ_cons, List.take_succ_cons, size, size]
        omega

lemma size_take_succ {k : ℕ} {a : List UInt8} (ha : args[k]? = some a) :
    size (args.take (k + 1)) = size (args.take k) + room a := by
  induction args generalizing k with
  | nil => cases ha
  | cons b args ih =>
    cases k with
    | zero =>
      cases ha
      simp [size]
    | succ k =>
      rw [List.take_succ_cons, List.take_succ_cons, size, size, ih ha]
      omega

lemma size_mod : size args % 4 = 0 := by
  induction args with
  | nil => rfl
  | cons a args ih =>
    have hr := room_bounds a
    rw [size]
    omega

lemma size_take_le {k : ℕ} : size (args.take k) ≤ size args := by
  rcases Nat.le_total k args.length with h | h
  · have hm : size (args.take k) ≤ size (args.take args.length) := size_take_mono h
    rwa [List.take_length] at hm
  · rw [List.take_of_length_le h]

lemma places_getElem {k q : ℕ} (hsp : size args ≤ sp) (hq : (places sp args)[k]? = some q) :
    q + size (args.take (k + 1)) = sp := by
  induction args generalizing sp k with
  | nil => cases hq
  | cons a args ih =>
    rw [size] at hsp
    cases k with
    | zero =>
      cases hq
      rw [List.take_succ_cons, List.take_zero, size, size]
      omega
    | succ k =>
      have hk := ih (by omega) hq
      rw [List.take_succ_cons, size]
      omega

lemma length_bytes (ws : List ℕ) : (bytes ws).length = 4 * ws.length := by
  induction ws with
  | nil => rfl
  | cons v ws ih =>
    have hcons : bytes (v :: ws) =
        [UInt8.ofNat v, UInt8.ofNat (v / 256), UInt8.ofNat (v / 65536), UInt8.ofNat (v / 16777216)] ++ bytes ws := rfl
    rw [hcons, List.length_append, ih, List.length_cons]
    simp only [List.length_cons, List.length_nil]
    omega

/-- The arguments and what `main` expects on its stack fit in the stack page. -/
def Fits (args : List (List UInt8)) : Prop := size args + 4 * (args.length + 4) ≤ PGSIZE

/-- The stack of a new image of `top` bytes: at `esp` a return address, `argc` and a pointer to the array behind it,
which ends with 0 and points to the arguments. All of it is in the page below `top`, the page below is not accessible,
and nothing overlaps. -/
structure Stack (s : Vm) (top esp : ℕ) (args : List (List UInt8)) : Prop where
  aligned : esp % 4 = 0
  inside : top - PGSIZE ≤ esp
  frame : Holds s esp (bytes (0xffffffff :: args.length :: (esp + 12) :: (places top args ++ [0])))
  strings : ∀ (k : ℕ) (a : List UInt8) (q : ℕ), args[k]? = some a → (places top args)[k]? = some q → Holds s q (a ++ [0])
  apart : ∀ (k : ℕ) (a : List UInt8) (q : ℕ), args[k]? = some a → (places top args)[k]? = some q →
    esp + 4 * (args.length + 4) ≤ q ∧ q + a.length + 1 ≤ top
  disjoint : ∀ (j k : ℕ) (a : List UInt8) (q r : ℕ), j < k → args[k]? = some a → (places top args)[k]? = some q →
    (places top args)[j]? = some r → q + a.length + 1 ≤ r
  guard : ∀ va, top - 2 * PGSIZE ≤ va → va < top → ((s.get va).isSome ↔ top - PGSIZE ≤ va)

/-- `clearpteu` for the page below the stack. -/
lemma clearpteu_ends (h : Grown env s (n + 2)) : Ends (clearpteu s n) (¬ Tabled env (n + 2) n) (Tabled env (n + 2) n)
    fun s' => Stacked env s' n ∧ ∀ x, x / 4096 ≠ n → s'.get x = s.get x := by
  have hle := h.le
  have htable := h.table n (by omega)
  unfold clearpteu
  by_cases hmap : Tabled env (n + 2) n
  · rw [if_pos (show s.table (n / NPTENTRIES) = true from htable.2 hmap)]
    refine (ends_ok ⟨⟨hle, fun p hp => ?_, fun p hp => ?_, hmap⟩, fun x hx => ?_⟩).congr
      (iff_of_false id fun hno => hno hmap) (iff_of_true trivial hmap)
    · by_cases hpn : p = n
      · subst hpn
        refine iff_of_false ?_ fun ho => ho.2.1 rfl
        simp only [if_true]
        cases s.page p with
        | none => exact Bool.false_ne_true
        | some g => exact Bool.false_ne_true
      · simp only [if_neg hpn]
        by_cases hlt : p < n + 2
        · rw [h.user p hlt]
          exact ⟨fun hm => ⟨hlt, hpn, hm⟩, fun ho => ho.2.2⟩
        · refine iff_of_false ?_ fun ho => hlt ho.1
          by_cases hker : Kernel p
          · rw [(h.kernel p hker).2]
            exact Bool.false_ne_true
          · have hnone : s.page p = none := by
              unfold Kernel KERNBASE PGSIZE PHYSTOP DEVSPACE at hker
              by_cases hlow : p < 524288
              · exact h.above p (Nat.le_of_not_lt hlt) hlow
              · exact (h.gap p (by omega) (by omega)).2
            rw [hnone]
            exact Bool.false_ne_true
    · unfold Untabled
      by_cases hlow : p < 524288
      · rw [show (_ : Vm).table (p / 1024) = s.table (p / 1024) from rfl, h.table p hlow]
        constructor
        · rintro ht (⟨-, hno⟩ | ⟨hge, -⟩)
          · exact hno ht
          · omega
        · intro hno
          by_contra ht
          exact hno (Or.inl ⟨hlow, ht⟩)
      · by_cases hgap : 581632 ≤ p ∧ p < 1040384
        · refine iff_of_false ?_ fun hno => hno (Or.inr hgap)
          rw [show (_ : Vm).table (p / 1024) = s.table (p / 1024) from rfl, (h.gap p hgap.1 hgap.2).1]
          exact Bool.false_ne_true
        · have hker : Kernel p := by
            unfold Kernel KERNBASE PGSIZE PHYSTOP DEVSPACE
            omega
          refine iff_of_true (h.kernel p hker).1 ?_
          rintro (⟨hlt, -⟩ | hin)
          · exact hlow hlt
          · exact hgap hin
    · unfold Vm.get
      simp only [if_neg hx]
  · rw [if_neg (show ¬ s.table (n / NPTENTRIES) = true from fun ht => hmap (htable.1 ht))]
    exact ends_panic.congr (iff_of_true trivial hmap) (iff_of_false id hmap)

lemma sub_mod {k : ℕ} (hk : k ≤ sp) (hsp : sp < 4294967296) : (sp + 2 ^ 32 - k) % 2 ^ 32 = sp - k := by
  rw [show sp + 2 ^ 32 - k = sp - k + 2 ^ 32 by omega, Nat.add_mod_right]
  exact Nat.mod_eq_of_lt (by omega)

/-- Where `main` finds its stack, in an image of `top` bytes. -/
def frame (top : ℕ) (args : List (List UInt8)) : ℕ := top - size args - 4 * (args.length + 4)

/-- The last `copyout` of `exec`, and what it leaves. -/
lemma frame_ends (null : Bool) {B : ℕ} {r : Vm × ℕ × List ℕ} (hB : B = n * 4096) (h : Pushed env n (B + 8192) args [] s r)
    (hargs : args.length < 32) : Ends (do
      let ustack := 0xffffffff :: r.2.2.length :: (r.2.1 + 2 ^ 32 - (r.2.2.length + 1) * 4) % 2 ^ 32 :: (r.2.2 ++ [0])
      let sp := (r.2.1 + 2 ^ 32 - ustack.length * 4) % 2 ^ 32
      let s ← copyout null r.1 sp (bytes ustack)
      .ok (s, sp)) (null = true ∧ Gaps env n (frame (B + 8192) args) (4 * (args.length + 4)))
        (Fits args ∧ Maps env (n + 1)) fun z =>
        Stack z.1 (B + 8192) z.2 args ∧ ∀ x, x < B + 4096 → z.1.get x = s.get x := by
  obtain ⟨s₁, sp, ptrs⟩ := r
  obtain ⟨hstk, hfit, hsp, hptrs, hheld, hkeep⟩ := h
  simp only [List.nil_append] at hsp hptrs hheld hkeep hstk ⊢
  subst hptrs
  have hle := hstk.le
  have h1 : (n + 1) * 4096 = B + 4096 := by
    rw [hB]
    exact Nat.add_mul n 1 4096
  have h2 : (n + 2) * 4096 = B + 8192 := by
    rw [hB]
    exact Nat.add_mul n 2 4096
  have hbound : B ≤ 524286 * 4096 := by
    rw [hB]
    exact Nat.mul_le_mul_right 4096 (by omega)
  rw [h1] at hfit
  have hlen : ∀ v, (0xffffffff :: args.length :: v :: (places (B + 8192) args ++ [0])).length = args.length + 4 := by
    intro v
    simp [length_places]
  rw [length_places, hlen, sub_mod (by omega) (by omega), sub_mod (by omega) (by omega),
    show sp - (args.length + 1) * 4 = sp - (args.length + 4) * 4 + 12 by omega]
  obtain ⟨esp, hesp⟩ : ∃ esp, esp = sp - (args.length + 4) * 4 := ⟨_, rfl⟩
  have hframe : frame (B + 8192) args = esp := by
    unfold frame
    omega
  rw [← hesp, hframe]
  obtain ⟨ustack, hustack⟩ : ∃ u, u = 0xffffffff :: args.length :: (esp + 12) :: (places (B + 8192) args ++ [0]) := ⟨_, rfl⟩
  rw [← hustack]
  have hbytes : (bytes ustack).length = 4 * (args.length + 4) := by
    rw [length_bytes, hustack, hlen]
  have hpos : 0 < (bytes ustack).length := by omega
  have haim : Aimed n esp (bytes ustack).length := by
    unfold Aimed
    rw [h1, h2]
    omega
  have hfits : ((n + 1) * 4096 ≤ esp ∧ esp + (bytes ustack).length ≤ (n + 2) * 4096 ∧ Maps env (n + 1)) ∧ True ↔
      Fits args ∧ Maps env (n + 1) := by
    rw [h1, h2, and_true, ← and_assoc]
    refine and_congr_left fun _ => ?_
    unfold Fits PGSIZE
    omega
  refine ((copyout_ends hstk hpos haim).bind fun s₂ hput => ends_ok ?_).congr
    (by rw [hbytes]; simp) hfits
  obtain ⟨hstk₂, ⟨hin, hend, hmap⟩, hheld₂, hkeep₂⟩ := hput
  rw [h1] at hin
  have hsize : size args ≤ B + 8192 := by omega
  have hspot : ∀ k a q, args[k]? = some a → (places (B + 8192) args)[k]? = some q →
      q + room a + size (args.take k) = B + 8192 ∧ sp ≤ q := by
    intro k a q ha hq
    have hk := places_getElem hsize hq
    have hle : size (args.take (k + 1)) ≤ size args := size_take_le
    rw [size_take_succ ha] at hk hle
    omega
  refine ⟨⟨?_, ?_, ?_, ?_, ?_, ?_, ?_⟩, ?_⟩
  · have hmod : size args % 4 = 0 := size_mod
    omega
  · unfold PGSIZE
    omega
  · rw [← hustack]
    exact hheld₂
  · intro k a q ha hq j b hb
    have hq' := hspot k a q ha hq
    rw [hkeep₂ _ (by omega)]
    exact hheld k a q ha hq j b hb
  · intro k a q ha hq
    have hq' := hspot k a q ha hq
    have hr := room_bounds a
    omega
  · intro j k a q t hjk ha hq ht
    have hq' := hspot k a q ha hq
    have hr := room_bounds a
    have ht' := places_getElem hsize ht
    have hm : size (args.take (j + 1)) ≤ size (args.take k) := size_take_mono hjk
    omega
  · intro va hlo hhi
    rw [get_isSome, hstk₂.user _ (by omega)]
    unfold PGSIZE at hlo ⊢
    by_cases hva : B + 4096 ≤ va
    · have hpage : va / 4096 = n + 1 := by omega
      rw [hpage]
      exact iff_of_true ⟨by omega, by omega, hmap⟩ (Nat.sub_le_of_le_add (by omega))
    · have hpage : va / 4096 = n := by omega
      rw [hpage]
      exact iff_of_false (fun ho => ho.2.1 rfl) (by omega)
  · intro x hx
    have hx' : x < esp := hx.trans_le hin
    rw [hkeep₂ x (Or.inl hx'), hkeep x (Or.inl (by omega))]

/-- The guard page and the stack page. -/
lemma stackPages_ends {B : ℕ} {r : Vm × ℕ} (hB : B = n * 4096) (hn : n = pages r.2) (h : Grown env r.1 n)
    (hsz : r.2 < 2147483648) : Ends (stackPages env r) (Room env B (B + 8192) ∧ ¬ Tabled env (n + 2) n)
      (Room env B (B + 8192) ∧ Tabled env (n + 2) n)
      fun z => z.2 = B + 8192 ∧ Stacked env z.1 n ∧ ∀ x, x < B → z.1.get x = r.1.get x := by
  have hle : B ≤ 2147483648 := by
    rw [hB]
    exact Nat.mul_le_mul_right 4096 h.le
  unfold stackPages
  rw [pgroundup hsz, ← hn, ← hB, show B + 2 * PGSIZE = B + 8192 from rfl]
  by_cases hroom : B + 8192 < 2147483648
  · have hpages : pages B = n := by
      unfold pages
      omega
    have hpages' : pages (B + 8192) = n + 2 := by
      unfold pages
      omega
    rw [← hpages] at h
    refine ((allocuvm_ends (by omega) h (Nat.le_add_right B 8192)).bind (S := ¬ Tabled env (n + 2) n)
      (G := Tabled env (n + 2) n) ?_).congr (by simp) Iff.rfl
    rintro ⟨s₁, top⟩ ⟨htop, -, hext⟩
    simp only at htop hext
    rw [hpages, hpages'] at hext
    subst htop
    have hidx : (B + 8192) / PGSIZE - 2 = n := by
      unfold PGSIZE
      omega
    dsimp only
    rw [hidx]
    refine ((clearpteu_ends hext.grown).bind fun s₂ hs₂ => ends_ok ?_).congr (by simp)
      (by simp)
    refine ⟨rfl, hs₂.1, fun x hx => ?_⟩
    rw [hs₂.2 x (by omega), hext.keep x (by omega)]
  · have hbad : allocuvm env r.1 B (B + 8192) = .error .bad := if_pos (Nat.le_of_not_lt hroom)
    have hno : ¬ Room env B (B + 8192) := fun hr => hroom hr.below
    rw [hbad]
    exact ends_bad.congr (by simp [hno]) (by simp [hno])

/-- The arguments and the frame of `main`. -/
lemma pushStack_ends (entry : ℕ) {B : ℕ} {r : Vm × ℕ} (hB : B = n * 4096) (h : Stacked env r.1 n)
    (hsz : r.2 = B + 8192) (hargs : args.length < 32) (hstored : Stored args) :
    Ends (pushStack null args entry r)
      (null = true ∧ Strays env n (B + 8192) args ∨
        ((n + 1) * 4096 + size args ≤ B + 8192 ∧ (args ≠ [] → Maps env (n + 1))) ∧
          null = true ∧ Gaps env n (frame (B + 8192) args) (4 * (args.length + 4)))
      (Fits args ∧ Maps env (n + 1))
      fun z => z.sz = B + 8192 ∧ Stack z.pgdir (B + 8192) z.esp args ∧ ∀ x, x < B + 4096 → z.pgdir.get x = r.1.get x := by
  have h1 : (n + 1) * 4096 = B + 4096 := by
    rw [hB]
    exact Nat.add_mul n 1 4096
  unfold pushStack
  rw [hsz]
  have hpush : Ends (pushLoop null args r.1 (B + 8192) []) (null = true ∧ Strays env n (B + 8192) args)
      ((n + 1) * 4096 + size args ≤ B + 8192 ∧ (args ≠ [] → Maps env (n + 1)))
      (Pushed env n (B + 8192) args [] r.1) :=
    pushLoop_ends h (by omega) (by omega) (by omega) (by rw [List.length_nil, Nat.zero_add]; exact hargs) hstored
  have hdone := (hpush.bind fun z hz => frame_ends null hB hz hargs).bind
    (f := fun z => .ok (⟨z.1, B + 8192, entry, z.2⟩ : Proc)) (Q := fun z => z.sz = B + 8192 ∧
      Stack z.pgdir (B + 8192) z.esp args ∧ ∀ x, x < B + 4096 → z.pgdir.get x = r.1.get x)
    fun z hz => ends_ok ⟨rfl, hz.1, hz.2⟩
  simp only [bind_assoc] at hdone
  refine hdone.congr (by simp) ⟨fun hin => hin.1.2, fun hin => ⟨⟨⟨?_, fun _ => hin.2⟩, hin⟩, trivial⟩⟩
  have hfits := hin.1
  unfold Fits PGSIZE at hfits
  omega

/-! ### exec -/

/-- The loadable segments of an ELF file. -/
def loadable (file : List UInt8) : List ProgHdr :=
  segments file (word (file.take 52) 44 % 65536) (word (file.take 52) 28)

/-- The guard page of the image of a file, which is the page behind its segments. -/
def guardPage (file : List UInt8) : ℕ := pages (imageEnd 0 (loadable file))

/-- The size of the image of a file with its stack. -/
def top (file : List UInt8) : ℕ := guardPage file * 4096 + 8192

lemma readi_header (file : List UInt8) : readi file 0 52 = some (file.take 52) := by
  unfold readi
  rw [if_neg (by omega), List.drop_zero]

/-- `exec` accepts the ELF header. -/
def Elf (file : List UInt8) : Prop := 52 ≤ file.length ∧ word (file.take 52) 0 = ELF_MAGIC

/-- On the way to the arguments `exec` comes to a page without a page table: one that it loads, or the guard page. -/
def Halts (env : Env) (file : List UInt8) : Prop :=
  Elf file ∧ env.kvm = true ∧
    (HeadersBare env file (word (file.take 52) 44 % 65536) (word (file.take 52) 28) 0 ∨
      HeadersWhole env file (word (file.take 52) 44 % 65536) (word (file.take 52) 28) 0 ∧
        Room env (guardPage file * 4096) (top file) ∧ ¬ Tabled env (guardPage file + 2) (guardPage file))

/-- `exec` comes to the arguments: the file is complete, there are pages for its image, and page tables for what
it loads and for the guard page. -/
def Comes (env : Env) (file : List UInt8) : Prop :=
  Elf file ∧ env.kvm = true ∧
    HeadersWhole env file (word (file.take 52) 44 % 65536) (word (file.take 52) 28) 0 ∧
      Room env (guardPage file * 4096) (top file) ∧ Tabled env (guardPage file + 2) (guardPage file)

/-- The memory in front of the arguments. -/
lemma image_ends (helf : Elf file) (hfile : file.length < KERNBASE) (hl : Loadable (loadable file)) :
    Ends (image env file (file.take 52)) (Halts env file) (Comes env file) fun z => z.2 = top file ∧
      Stacked env z.1 (guardPage file) ∧ ∀ ph ∈ loadable file,
        ph.vaddr + ph.memsz ≤ guardPage file * 4096 ∧ ph.filesz ≤ ph.memsz ∧ Partly env file z.1 ph := by
  have h0 : pages 0 = 0 := by decide
  have hrest : ∀ s, Grown env s 0 → Ends (do
      let r ← segmentLoop env file (word (file.take 52) 44 % 65536) (word (file.take 52) 28) (s, 0)
      stackPages env r)
      (HeadersBare env file (word (file.take 52) 44 % 65536) (word (file.take 52) 28) 0 ∨
        HeadersWhole env file (word (file.take 52) 44 % 65536) (word (file.take 52) 28) 0 ∧
          Room env (guardPage file * 4096) (top file) ∧ ¬ Tabled env (guardPage file + 2) (guardPage file))
      (HeadersWhole env file (word (file.take 52) 44 % 65536) (word (file.take 52) 28) 0 ∧
        Room env (guardPage file * 4096) (top file) ∧ Tabled env (guardPage file + 2) (guardPage file)) fun z => z.2 = top file ∧ Stacked env z.1 (guardPage file) ∧ ∀ ph ∈ loadable file,
        ph.vaddr + ph.memsz ≤ guardPage file * 4096 ∧ ph.filesz ≤ ph.memsz ∧ Partly env file z.1 ph := by
    intro s hs
    rw [← h0] at hs
    refine (segmentLoop_ends (r := (s, 0)) hfile hs (Nat.zero_lt_succ _) hl fun ph _ => Nat.zero_le _).bind fun r hr => ?_
    have hr₂ : guardPage file = pages r.2 := by
      rw [hr.size]
      rfl
    have hg := hr.grown
    rw [← hr₂] at hg
    refine (stackPages_ends rfl hr₂ hg hr.lt).mono fun z hz => ⟨hz.1, hz.2.1, fun ph hph => ?_⟩
    obtain ⟨hfilesz, hphend⟩ := hr.ends ph hph
    have hphB : ph.vaddr + ph.memsz ≤ guardPage file * 4096 := by
      rw [hr₂]
      exact hphend.trans le_pages
    refine ⟨hphB, hfilesz, (hr.held ph hph).congr (fun va hva => ?_) hfilesz⟩
    exact hz.2.2 va (hva.trans_le hphB)
  refine (setupkvm_ends.bind hrest).congr ?_ ?_
  · rw [false_or]
    exact ⟨fun hs => ⟨helf, hs⟩, fun hs => hs.2⟩
  · exact ⟨fun hs => ⟨helf, hs⟩, fun hs => hs.2⟩

/-- What `exec` promises: if it returns 0, each segment holds its bytes of the file and then zeros, and the arguments are
on the stack; if they do not fit in the stack page, it returns -1. -/
structure Meets (env : Env) (file : List UInt8) (args : List (List UInt8)) : Prop where
  layout : ∀ z, exec env file args = .ok z →
    z.sz = top file ∧ (∀ ph ∈ loadable file, InMemory file z.pgdir ph) ∧ Stack z.pgdir (top file) z.esp args
  refuses : ¬ Fits args → exec env file args = .error .bad

/-- The condition under which it does: no page of a segment may have been passed over if the arguments fit, and no page
without a page table may be where `exec` comes to if they do not. -/
structure Backed (env : Env) (file : List UInt8) (args : List (List UInt8)) : Prop where
  segments : Fits args → Comes env file → Maps env (guardPage file + 1) → ∀ ph ∈ loadable file, Covered env ph
  image : ¬ Fits args → ¬ Halts env file
  stack : ¬ Fits args → Comes env file → env.null = true → ¬ Strays env (guardPage file) (top file) args

lemma exec_of_elf (h : Elf file) :
    exec env file args = image env file (file.take 52) >>= pushStack env.null args (word (file.take 52) 24) := by
  have hheader : ¬ ((file.take 52).length < 52 ∨ word (file.take 52) 0 ≠ ELF_MAGIC) := by
    rw [List.length_take]
    rintro (hlen | hmagic)
    · have hle := h.1
      omega
    · exact hmagic h.2
  unfold exec
  rw [readi_header]
  dsimp only
  rw [if_neg hheader]

lemma exec_of_not_elf (h : ¬ Elf file) : exec env file args = .error .bad := by
  have hno : (file.take 52).length < 52 ∨ word (file.take 52) 0 ≠ ELF_MAGIC := by
    rw [List.length_take]
    by_contra hno
    apply h
    constructor
    · omega
    · by_contra hmagic
      exact hno (Or.inr hmagic)
  unfold exec
  rw [readi_header]
  dsimp only
  rw [if_pos hno]

/-- What `exec` leaves. -/
structure Done (env : Env) (file : List UInt8) (args : List (List UInt8)) (z : Proc) : Prop where
  size : z.sz = top file
  held : ∀ ph ∈ loadable file, ph.filesz ≤ ph.memsz ∧ Partly env file z.pgdir ph
  closed : ∀ ph ∈ loadable file, ∀ p, ph.vaddr / 4096 ≤ p → p * 4096 < ph.vaddr + ph.memsz →
    (z.pgdir.get (p * 4096)).isSome = true → Maps env p
  stack : Stack z.pgdir (top file) z.esp args

lemma exec_ends (hfile : file.length < KERNBASE) (hl : Loadable (loadable file)) (hargs : args.length < MAXARG)
    (hstored : Stored args) : Ends (exec env file args)
      (Halts env file ∨ Comes env file ∧ (env.null = true ∧ Strays env (guardPage file) (top file) args ∨
        ((guardPage file + 1) * 4096 + size args ≤ top file ∧ (args ≠ [] → Maps env (guardPage file + 1))) ∧
          env.null = true ∧ Gaps env (guardPage file) (frame (top file) args) (4 * (args.length + 4))))
      (Comes env file ∧ Fits args ∧ Maps env (guardPage file + 1)) (Done env file args) := by
  by_cases helf : Elf file
  · rw [exec_of_elf helf]
    refine (image_ends helf hfile hl).bind fun r hr => ?_
    obtain ⟨hsz, hstk, hseg⟩ := hr
    refine (pushStack_ends _ rfl hstk hsz hargs hstored).mono fun z hz => ?_
    obtain ⟨hzsz, hst, hget⟩ := hz
    refine ⟨hzsz, fun ph hph => ?_, fun ph hph p h1 h2 hsome => ?_, hst⟩
    · obtain ⟨hend, hfilesz, hin⟩ := hseg ph hph
      refine ⟨hfilesz, hin.congr (fun va hva => hget va ?_) hfilesz⟩
      omega
    · obtain ⟨hend, -, -⟩ := hseg ph hph
      have hle := hstk.le
      rw [hget _ (by omega), get_isSome, hstk.user _ (by omega), Nat.mul_div_cancel _ (by decide)] at hsome
      exact hsome.2.2
  · rw [exec_of_not_elf helf]
    refine ends_bad.congr (iff_of_false id ?_) (iff_of_false id fun hin => helf hin.1.1)
    rintro (hhalt | ⟨hcomes, -⟩)
    · exact helf hhalt.1
    · exact helf hcomes.1

/-- The frame of `main` runs into the guard page, which has a page table. -/
lemma not_gaps_frame (hcomes : Comes env file) (hfits : ¬ Fits args) (hargs : args.length < MAXARG)
    (hin : (guardPage file + 1) * 4096 + size args ≤ top file) (hgaps : Gaps env (guardPage file) (frame (top file) args)
      (4 * (args.length + 4))) : False := by
  obtain ⟨-, -, -, hroom, htab⟩ := hcomes
  have hbelow : top file < 2147483648 := hroom.below
  obtain ⟨q, h1, -, h3, h4⟩ := hgaps
  unfold top at hin h1 hbelow
  unfold Fits PGSIZE at hfits
  unfold MAXARG at hargs
  unfold frame at h1 h3
  have hpage : (guardPage file * 4096 + 8192 - size args - 4 * (args.length + 4)) / 4096 = guardPage file := by omega
  unfold top at h3
  rw [hpage] at h1 h3
  rcases Nat.eq_or_lt_of_le h1 with heq | hlt
  · rw [← heq] at h4
    rcases h4 with ⟨-, hno⟩ | ⟨hge, -⟩
    · exact hno htab
    · omega
  · exact (h3 _ le_rfl hlt).2.1 rfl

/-- An ELF file with one segment: `filesz` bytes at offset 84 and `memsz` bytes in memory. -/
def oneSegment (filesz memsz : UInt8) (code : List UInt8) : List UInt8 :=
  [0x7F, 0x45, 0x4C, 0x46] ++ List.replicate 24 0 ++ [52, 0, 0, 0] ++ List.replicate 12 0 ++ [1, 0] ++ List.replicate 6 0 ++
    [1, 0, 0, 0, 84, 0, 0, 0] ++ List.replicate 8 0 ++ [filesz, 0, 0, 0, memsz, 0, 0, 0] ++ List.replicate 8 0 ++ code

/-- The arguments "a" and "bcd". -/
def twoArgs : List (List UInt8) := [[97], [98, 99, 100]]

/-- Memory for everything; the old memory begins with `push %ebp` and `mov %esp,%ebp`, which looks like the entry of a
user page. -/
def plenty : Env := ⟨true, fun _ => true, fun _ => true, some 0x83e58955⟩

lemma loadable_oneSegment : loadable (oneSegment 2 4 [1, 2]) = [⟨1, 84, 0, 2, 4⟩] := by decide +kernel

lemma loadable_bss : loadable (oneSegment 0 1 []) = [⟨1, 84, 0, 0, 1⟩] := by decide +kernel

lemma loadable_single {ph : ProgHdr} (ha : ph.vaddr % PGSIZE = 0) (hb : ph.vaddr + ph.memsz ≤ KERNBASE) : Loadable [ph] := by
  constructor
  · intro q hq
    rw [List.mem_singleton.1 hq]
    exact ha
  · intro q hq
    rw [List.mem_singleton.1 hq]
    exact hb
  · exact List.pairwise_singleton _ _

lemma loadable_plenty : Loadable (loadable (oneSegment 2 4 [1, 2])) := by
  rw [loadable_oneSegment]
  exact loadable_single (by decide) (by decide)

lemma guardPage_oneSegment : guardPage (oneSegment 2 4 [1, 2]) = 1 := by
  unfold guardPage
  rw [loadable_oneSegment]
  decide

lemma maps_plenty (p : ℕ) : Maps plenty p := ⟨p, Nat.lt_succ_self p, rfl, rfl⟩

lemma comes_plenty : Comes plenty (oneSegment 2 4 [1, 2]) := by
  have helf : Elf (oneSegment 2 4 [1, 2]) := ⟨by decide, by decide +kernel⟩
  have hok : (image plenty (oneSegment 2 4 [1, 2]) ((oneSegment 2 4 [1, 2]).take 52)).toBool = true := by decide +kernel
  cases hr : image plenty (oneSegment 2 4 [1, 2]) ((oneSegment 2 4 [1, 2]).take 52) with
  | ok r => exact (image_ends helf (by decide) loadable_plenty).ok.1 ⟨r, hr⟩
  | error e =>
    rw [hr] at hok
    cases hok

/-- Without a page for the first page table `allocuvm` passes over the page, which later pages do not make up for. -/
theorem exec_skips_page : ¬ ∀ (env : Env) (file : List UInt8) (args : List (List UInt8)), file.length < KERNBASE →
    Loadable (loadable file) → args.length < MAXARG → ∀ z, exec env file args = .ok z →
      ∀ ph ∈ loadable file, InMemory file z.pgdir ph := by
  intro h
  have hl : Loadable (loadable (oneSegment 0 1 [])) := by
    rw [loadable_bss]
    exact loadable_single (by decide) (by decide)
  have hget : (exec ⟨true, fun _ => true, fun p => decide (p ≠ 0), none⟩ (oneSegment 0 1 []) []).toOption.map
      (fun z => z.pgdir.get 0) = some none := by decide +kernel
  cases hr : exec ⟨true, fun _ => true, fun p => decide (p ≠ 0), none⟩ (oneSegment 0 1 []) [] with
  | ok z =>
    have hmem : ⟨1, 84, 0, 0, 1⟩ ∈ loadable (oneSegment 0 1 []) := by
      rw [loadable_bss]
      exact List.mem_singleton_self _
    have hin := h _ _ _ (by decide) hl (by decide) z hr _ hmem
    rw [hr] at hget
    have hnone : z.pgdir.get 0 = none := Option.some.inj hget
    have hzero : z.pgdir.get 0 = some 0 := hin.bss 0 le_rfl Nat.one_pos
    rw [hnone] at hzero
    cases hzero
  | error e =>
    rw [hr] at hget
    cases hget

end Exec

end Memory

end Os132

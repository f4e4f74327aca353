import Os132.User.Calls
import Os132.Lib.Run

/-!
# Runs of the allocator

In a run of `malloc` and `free` every `free` is given a block in use, no request is so large that
its unit or byte count wraps, and `sbrk` fails or gives memory above all it gave before and not
next to the static header. Then between calls the list is a circle in the order of addresses, the
free blocks and the blocks in use share the memory obtained among them, and every call returns.
-/

namespace Os132.User

open Cover

/-- What the program and `sbrk` promise of a call. -/
def Legal (base : ℕ) (m : Machine) : Call → Prop
  | .malloc nbytes sbrk => nbytes + HEADER - 1 < WORD ∧ request (units nbytes) * HEADER < WORD ∧
      ∀ p, sbrk 0 (request (units nbytes) * HEADER) = some p →
        Fresh base m.heap p (request (units nbytes) * HEADER)
  | .free ap => ∃ b ∈ m.live, ap = plus b 1

/-- The list with its free blocks `frees`, and the blocks in use, in the memory obtained. -/
structure Sound (base : ℕ) (m : Machine) (frees : List ℕ) : Prop where
  circular : (base :: frees ++ [base]).IsChain fun a b => m.heap.ptr a = b
  increasing : (base :: frees).Pairwise (· < ·)
  roving : m.heap.freep ∈ base :: frees
  nonempty : ∀ b ∈ frees ++ m.live, 0 < m.heap.size b
  not_adjacent : ∀ a ∈ base :: frees, ∀ b ∈ frees, a + m.heap.size a * HEADER ≠ b
  disjoint : (blocks m.heap (frees ++ m.live)).Pairwise Separate
  covering : ∀ x, (∃ c ∈ m.heap.chunks, Covers c x) ↔ ∃ b ∈ blocks m.heap (frees ++ m.live), Covers b x

namespace Rep

variable {base : ℕ} {m : Machine} {c : List ℕ} {a b : ℕ}

lemma gap_of_lt {h : Heap} {live : List ℕ} (r : Rep base [] h c live) (ha : a ∈ c) (hb : b ∈ c)
    (hab : a < b) : a + h.size a * HEADER < b := by
  obtain ⟨d, e, rfl⟩ := List.append_of_mem ha
  have hs := List.pairwise_append.1 r.sorted
  have he : b ∈ e := by
    rcases List.mem_append.1 hb with hb | hb
    · have := hs.2.2 b hb a (by simp)
      omega
    · rcases List.mem_cons.1 hb with rfl | hb
      · omega
      · exact hb
  cases e with
  | nil => simp at he
  | cons q e =>
    have hq := r.before
    have hgap : a + h.size a * HEADER < q := by
      have := hq.2.1
      have := hq.2.2
      simp only [List.not_mem_nil, imp_false] at this
      omega
    rcases List.mem_cons.1 he with rfl | he
    · exact hgap
    · have := (List.pairwise_cons.1 (List.pairwise_cons.1 hs.2.1).2).1 b he
      omega

lemma separate_head {loose : List ℕ} {h : Heap} {live : List ℕ} (r : Rep base loose h c (b :: live))
    (ha : a ∈ live) : Separate (b, h.size b * HEADER) (a, h.size a * HEADER) := by
  have hne : ∀ x ∈ b :: live, x ≠ base ∧ 0 < h.size x := by
    intro x hx
    have hxb : x ≠ base := by
      rintro rfl
      exact r.base_live hx
    exact ⟨hxb, (r.placed x (by simp at hx ⊢; tauto) hxb).1⟩
  have hsum : ∀ x, cover [(b, h.size b * HEADER)] x + cover (blocks h live) x ≤ 1 := by
    intro x
    have := (r.covers x).le.trans (r.once x)
    rw [blocks_append, cover_append, blocks_cons, ← List.singleton_append, cover_append] at this
    omega
  apply separate_of_cover hsum (by simp) (mem_blocks ha)
  · have := (hne b (by simp)).2
    simp only [HEADER]
    omega
  · have := (hne a (by simp [ha])).2
    simp only [HEADER]
    omega

lemma notMem_rest {loose : List ℕ} {h : Heap} {live : List ℕ} (r : Rep base loose h c (b :: live)) :
    b ∉ live := by
  intro hb
  have hne : b ≠ base := by
    rintro rfl
    exact r.base_live (by simp)
  have hpos := (r.placed b (by simp) hne).1
  have := r.separate_head hb
  simp only [Separate, HEADER] at this
  omega

theorem sound (r : Rep base [] m.heap c m.live) (hf : m.heap.freep ∈ c) : ∃ frees, Sound base m frees := by
  obtain ⟨frees, rfl⟩ : ∃ frees, c = base :: frees := by
    have := r.first
    cases c with
    | nil => simp at this
    | cons d c => exact ⟨c, by simpa using this⟩
  have hpos : ∀ b ∈ frees ++ m.live, b ≠ base ∧ 0 < m.heap.size b := by
    intro b hb
    have hne : b ≠ base := by
      rintro rfl
      rcases List.mem_append.1 hb with hb | hb
      · exact (List.nodup_cons.1 r.nodup).1 hb
      · exact r.base_live hb
    exact ⟨hne, (r.placed b (by simp at hb ⊢; tauto) hne).1⟩
  have hcover : ∀ x, cover (blocks m.heap (frees ++ m.live)) x = cover m.heap.chunks x := by
    intro x
    rw [← r.covers x, List.cons_append, blocks_cons, cover_empty (by simp [r.base_size])]
  refine ⟨frees, ?_⟩
  constructor
  · exact r.linked
  · exact r.sorted
  · exact hf
  · exact fun b hb => (hpos b hb).2
  · intro a ha b hb he
    rcases Nat.lt_or_ge a b with hab | hab
    · have := r.gap_of_lt ha (by simp [hb]) hab
      omega
    · have := hpos b (by simp [hb])
      have hbase := r.base_le (p := b) (by simp [hb])
      have hab' : a = b := by omega
      subst hab'
      simp only [HEADER] at he
      omega
  · apply pairwise_of_cover
    · intro x
      rw [hcover]
      exact r.once x
    · intro d hd
      obtain ⟨b, hb, rfl⟩ := List.mem_map.1 hd
      have := (hpos b hb).2
      simp only [HEADER]
      omega
  · intro x
    rw [← cover_pos_iff, ← cover_pos_iff, hcover]

end Rep

section Fuel

variable {h h' : Heap} {bp p s f j k n res : ℕ} {sbrk : ℕ → ℕ → Option ℕ}

lemma findSlot_mono (hs : findSlot h bp f p = some s) : findSlot h bp (f + j) p = some s := by
  induction f generalizing p with
  | zero => simp [findSlot] at hs
  | succ f ih =>
    rw [Nat.add_right_comm, findSlot]
    rw [findSlot] at hs
    split at hs
    · rw [if_pos (by assumption)]
      exact hs
    · rw [if_neg (by assumption)]
      split at hs
      · rw [if_pos (by assumption)]
        exact hs
      · rw [if_neg (by assumption)]
        exact ih hs

lemma free_mono (hs : free f h p = some h') : free (f + j) h p = some h' := by
  obtain ⟨q, hq, rfl⟩ := Option.map_eq_some_iff.1 hs
  simp [free, findSlot_mono hq]

lemma morecore_mono {ask : ℕ → Option ℕ} (hs : morecore f h ask n = some (h', res)) :
    morecore (f + j) h ask n = some (h', res) := by
  rw [morecore] at hs ⊢
  cases ha : ask (request n * HEADER % WORD) with
  | none => simpa [ha] using hs
  | some p =>
    simp only [ha] at hs ⊢
    obtain ⟨g, hg, heq⟩ := Option.map_eq_some_iff.1 hs
    rw [free_mono hg, Option.map_some, heq]

lemma mallocLoop_mono {q : ℕ} (hs : mallocLoop n sbrk f k h q p = some (h', res)) :
    mallocLoop n sbrk (f + j) k h q p = some (h', res) := by
  induction f generalizing k h q p with
  | zero => simp [mallocLoop] at hs
  | succ f ih =>
    rw [Nat.add_right_comm, mallocLoop]
    rw [mallocLoop] at hs
    by_cases hfit : h.size p ≥ n
    · rw [if_pos hfit] at hs ⊢
      exact hs
    · rw [if_neg hfit] at hs ⊢
      by_cases hfree : p = h.freep
      · rw [if_pos hfree] at hs ⊢
        obtain ⟨⟨g, r⟩, hmore, hrest⟩ := Option.bind_eq_some_iff.1 hs
        rw [morecore_mono hmore, Option.bind_some]
        by_cases hr : r = 0
        · rw [if_pos hr] at hrest ⊢
          exact hrest
        · rw [if_neg hr] at hrest ⊢
          exact ih hrest
      · rw [if_neg hfree] at hs ⊢
        exact ih hs

end Fuel

variable {base : ℕ} {m m' : Machine} {call : Call} {f j : ℕ}

/-- A call that has returned returns the same with more fuel. -/
theorem step_mono (hs : step base (call, f) m = some m') : step base (call, f + j) m = some m' := by
  cases call with
  | malloc nbytes sbrk =>
    obtain ⟨⟨g, r⟩, hr, heq⟩ := Option.map_eq_some_iff.1 hs
    rw [step, show malloc base (f + j) m.heap sbrk nbytes = some (g, r) from mallocLoop_mono hr,
      Option.map_some, heq]
  | free ap =>
    obtain ⟨g, hg, heq⟩ := Option.map_eq_some_iff.1 hs
    rw [step, free_mono hg, Option.map_some, heq]

/-- The invariant of the calls: the list has not been made, or it is in order. -/
def Inv (base : ℕ) (m : Machine) : Prop :=
  start m ∨ ∃ c, Rep base [] m.heap c m.live ∧ m.heap.freep ∈ c

/-- The first call of `malloc` makes the list. -/
lemma Inv.makeBase (hi : Inv base m) (hbase : 0 < base) :
    ∃ c, Rep base [] (makeBase base m.heap) c m.live ∧ (makeBase base m.heap).freep ∈ c ∧
      (User.makeBase base m.heap).chunks = m.heap.chunks ∧
      ∀ x ∈ m.live, (User.makeBase base m.heap).size x = m.heap.size x := by
  rcases hi with ⟨hfree, hchunks, hlive⟩ | ⟨c, hr, hf⟩
  · have hmake : User.makeBase base m.heap = ((m.heap.setPtr base base).setFreep base).setSize base 0 :=
      if_pos hfree
    have hcover : ∀ x, cover (User.makeBase base m.heap).chunks x = 0 := by
      intro x
      simp [hmake, Heap.setSize, Heap.setFreep, Heap.setPtr, hchunks]
    refine ⟨[base], ?_, by simp [hmake, Heap.setSize, Heap.setFreep], by
      simp [hmake, Heap.setSize, Heap.setFreep, Heap.setPtr], by simp [hlive]⟩
    constructor
    · rfl
    · simp [hmake, Heap.setSize, Heap.setFreep, Heap.setPtr]
    · simp
    · simp [hmake, Heap.setSize]
    · simp [hlive]
    · intro b hb hne
      simp [hlive, hne] at hb
    · intro x
      rw [hcover]
      omega
    · intro x
      rw [hcover, hlive, List.append_nil, blocks_cons, cover_empty]
      · rfl
      · simp [hmake, Heap.setSize]
  · have hne : m.heap.freep ≠ 0 := by
      have := hr.base_le (p := m.heap.freep) (by simp [hf])
      omega
    have hmake : User.makeBase base m.heap = m.heap := if_neg hne
    rw [hmake]
    exact ⟨c, hr, hf, rfl, fun x _ => rfl⟩

/-- The block that a call of `malloc` for `nbytes` returned as `res`. -/
def Returned (m m' : Machine) (nbytes res : ℕ) : Prop :=
  ∃ b, res = plus b 1 ∧ m'.live = b :: m.live ∧ nbytes + HEADER ≤ m'.heap.size b * HEADER ∧
    ∀ x ∈ m.live, Separate (b, m'.heap.size b * HEADER) (x, m'.heap.size x * HEADER)

lemma units_bytes {nbytes : ℕ} (hw : nbytes + HEADER - 1 < WORD) : nbytes + HEADER ≤ units nbytes * HEADER := by
  rw [units, Nat.mod_eq_of_lt hw]
  simp only [HEADER]
  omega

/-- A call of `malloc` from a heap in order returns, and what it returns. -/
theorem malloc_spec {nbytes : ℕ} {sbrk : ℕ → ℕ → Option ℕ} (hbase : 0 < base) (hi : Inv base m)
    (hl : Legal base m (.malloc nbytes sbrk)) :
    ∃ N h' res, (∀ fuel, N ≤ fuel → malloc base fuel m.heap sbrk nbytes = some (h', res)) ∧
      ∃ m', (∀ fuel, N ≤ fuel → step base (.malloc nbytes sbrk, fuel) m = some m') ∧ Inv base m' ∧
        (∀ x ∈ m.live, m'.heap.size x = m.heap.size x) ∧ (res ≠ 0 → Returned m m' nbytes res) := by
  obtain ⟨hw, hbytes, hs⟩ := hl
  obtain ⟨c, hr, hf, hchunks, hsame⟩ := hi.makeBase hbase
  have hs' : ∀ p, sbrk 0 (request (units nbytes) * HEADER) = some p →
      Fresh base (makeBase base m.heap) p (request (units nbytes) * HEADER) := by
    intro p hp
    have := hs p hp
    rwa [Fresh, hchunks]
  obtain ⟨N, h', res, c', hrun, hf', hsize, hres⟩ :=
    hr.mallocLoop_rep hf hbase (Nat.succ_pos _) hbytes hs'
  have hkeep : ∀ x ∈ m.live, h'.size x = m.heap.size x := fun x hx => (hsize x hx).trans (hsame x hx)
  have hnew : ∀ b, h'.size b = units nbytes → Rep base [] h' c' (b :: m.live) → plus b 1 = b + HEADER := by
    intro b hb hr'
    have hne : b ≠ base := by
      rintro rfl
      exact hr'.base_live (by simp)
    have hpl := hr'.placed b (by simp) hne
    have hin : b + 1 * HEADER < WORD := by
      simp only [HEADER] at hpl ⊢
      omega
    rw [plus_eq hin, Nat.one_mul]
  refine ⟨N, h', res, hrun, ⟨h', if res = 0 then m.live else (res - HEADER) :: m.live⟩, fun fuel hfuel => ?_, ?_,
    hkeep, fun hne => ?_⟩
  · rw [step, show malloc base fuel m.heap sbrk nbytes = some (h', res) from hrun fuel hfuel]
    rfl
  · rcases hres with ⟨rfl, hr'⟩ | ⟨b, rfl, hb, hr'⟩
    · exact Or.inr ⟨c', by simpa using hr', hf'⟩
    · rw [hnew b hb hr', if_neg (by simp only [HEADER]; omega), Nat.add_sub_cancel]
      exact Or.inr ⟨c', hr', hf'⟩
  · rcases hres with ⟨rfl, -⟩ | ⟨b, rfl, hb, hr'⟩
    · exact absurd rfl hne
    · refine ⟨b, rfl, ?_, ?_, fun x hx => hr'.separate_head hx⟩
      · rw [if_neg hne, hnew b hb hr', Nat.add_sub_cancel]
      · change _ ≤ h'.size b * HEADER
        rw [hb]
        exact units_bytes hw

/-- A call of `free` with a block in use returns. -/
theorem free_spec {ap : ℕ} (hi : Inv base m) (hl : Legal base m (.free ap)) :
    ∃ N m', (∀ fuel, N ≤ fuel → step base (.free ap, fuel) m = some m') ∧ Inv base m' ∧
      ∀ x ∈ m.live, x ∈ m'.live → m'.heap.size x = m.heap.size x := by
  obtain ⟨b, hb, rfl⟩ := hl
  rcases hi with ⟨-, -, hlive⟩ | ⟨c, hr, hf⟩
  · simp [hlive] at hb
  · obtain ⟨h', c', hrun, hr', hf', -, -, hsize⟩ := hr.free_rep hf hb
    have hne : b ≠ base := by
      rintro rfl
      exact hr.base_live hb
    have hpl := hr.placed b (by simp [hb]) hne
    have hplus : plus b 1 - HEADER = b := by
      rw [plus_eq, Nat.one_mul, Nat.add_sub_cancel]
      simp only [HEADER] at hpl ⊢
      omega
    refine ⟨2 * c.length + 1, ⟨h', m.live.erase b⟩, fun fuel hfuel => ?_, Or.inr ⟨c', hr', hf'⟩, ?_⟩
    · rw [step, hrun fuel (by omega), Option.map_some, hplus]
    · intro x hx hx'
      apply hsize x hx
      rintro rfl
      exact (hr.perm (List.perm_cons_erase hb)).notMem_rest hx'

/-- Every call that keeps the promises returns, keeps the invariant and the blocks in use. -/
theorem step_spec (hbase : 0 < base) (hi : Inv base m) (hl : Legal base m call) :
    ∃ N m', (∀ fuel, N ≤ fuel → step base (call, fuel) m = some m') ∧ Inv base m' ∧
      ∀ x ∈ m.live, x ∈ m'.live → m'.heap.size x = m.heap.size x := by
  cases call with
  | malloc nbytes sbrk =>
    obtain ⟨N, -, -, -, m', hrun, hi', hsize, -⟩ := malloc_spec hbase hi hl
    exact ⟨N, m', hrun, hi', fun x hx _ => hsize x hx⟩
  | free ap => exact free_spec hi hl

lemma step_det {g : ℕ} {m'' : Machine} (hs : step base (call, f) m = some m')
    (hg : ∀ fuel, g ≤ fuel → step base (call, fuel) m = some m'') : m' = m'' := by
  have h1 := step_mono (j := g) hs
  rw [hg (f + g) (by omega)] at h1
  exact (Option.some.inj h1).symm

theorem inv_step (hbase : 0 < base) (hi : Inv base m) (hl : Legal base m call)
    (hs : step base (call, f) m = some m') : Inv base m' := by
  obtain ⟨N, m'', hrun, hi', -⟩ := step_spec hbase hi hl
  rwa [step_det hs hrun]

/-- In every run that keeps the promises: between calls nothing has been obtained, or the list is
in order; every call returns; the blocks in use keep their sizes; and what `malloc` returns is
large enough and separate from the blocks in use. -/
theorem allocator_sound {n : ℕ} (hbase : 0 < base) (r : Lts.Run start (step base) n)
    (hr : r.Meets fun m l => Legal base m l.1) :
    (∀ k, k ≤ n → start (r.state k) ∨ ∃ frees, Sound base (r.state k) frees) ∧
    (∀ k, k ≤ n → ∀ call, Legal base (r.state k) call →
      ∃ N m', ∀ fuel, N ≤ fuel → step base (call, fuel) (r.state k) = some m') ∧
    (∀ k, k < n → ∀ x ∈ (r.state k).live, x ∈ (r.state (k + 1)).live →
      (r.state (k + 1)).heap.size x = (r.state k).heap.size x) ∧
    ∀ k, k < n → ∀ nbytes sbrk fuel h res, r.label k = (.malloc nbytes sbrk, fuel) →
      malloc base fuel (r.state k).heap sbrk nbytes = some (h, res) → res ≠ 0 →
        Returned (r.state k) (r.state (k + 1)) nbytes res := by
  have hinv : ∀ k, k ≤ n → Inv base (r.state k) := by
    apply r.invariant_of hr (P := Inv base)
    · exact fun m hm => Or.inl hm
    · intro m l m' hi hl hs
      exact inv_step (f := l.2) hbase hi hl hs
  have hstep : ∀ k, k < n → step base ((r.label k).1, (r.label k).2) (r.state k) = some (r.state (k + 1)) :=
    fun k hk => r.steps k hk
  constructor
  · intro k hk
    rcases hinv k hk with hs | ⟨c, hc, hf⟩
    · exact Or.inl hs
    · exact Or.inr (hc.sound hf)
  constructor
  · intro k hk call hl
    obtain ⟨N, m', hrun, -⟩ := step_spec hbase (hinv k hk) hl
    exact ⟨N, m', hrun⟩
  constructor
  · intro k hk
    obtain ⟨N, m', hrun, -, hsize⟩ := step_spec hbase (hinv k hk.le) (hr k hk)
    rwa [step_det (hstep k hk) hrun]
  · intro k hk nbytes sbrk fuel h res hlab hres hne
    have hl := hr k hk
    have hs := hstep k hk
    rw [hlab] at hl hs
    obtain ⟨N, h', res', hrun, m', hrun', -, -, hret⟩ := malloc_spec hbase (hinv k hk.le) hl
    have hlarge : malloc base (fuel + N) (r.state k).heap sbrk nbytes = some (h, res) := mallocLoop_mono hres
    rw [hrun (fuel + N) (by omega)] at hlarge
    simp only [Option.some.injEq, Prod.mk.injEq] at hlarge
    rw [step_det hs hrun', ← hlarge.2]
    apply hret
    rw [hlarge.2]
    exact hne

instance (base : ℕ) (h : Heap) (p bytes : ℕ) : Decidable (Fresh base h p bytes) :=
  inferInstanceAs (Decidable (base + HEADER < p ∧ p + bytes < WORD ∧ ∀ c ∈ h.chunks, c.1 + c.2 ≤ p))

/-- What `Legal` says, as a test. -/
def legal (base : ℕ) (m : Machine) : Call → Bool
  | .malloc nbytes sbrk => nbytes + HEADER - 1 < WORD && request (units nbytes) * HEADER < WORD &&
      (sbrk 0 (request (units nbytes) * HEADER)).all fun p =>
        Fresh base m.heap p (request (units nbytes) * HEADER)
  | .free ap => m.live.any fun b => ap = plus b 1

lemma legal_of_test (h : legal base m call = true) : Legal base m call := by
  cases call with
  | malloc nbytes sbrk =>
    simp only [legal, Bool.and_eq_true, decide_eq_true_eq] at h
    refine ⟨h.1.1, h.1.2, fun p hp => ?_⟩
    simpa [hp] using h.2
  | free ap => simpa [legal, Legal] using h

/-- Two small blocks, the first given back, a block for which the list has no room, and all given back. -/
def fiveCalls : List (Call × ℕ) :=
  [(.malloc 100 fun _ _ => some 16384, 9), (.malloc 20 fun _ _ => none, 9), (.free 49048, 9),
    (.malloc 50000 fun _ _ => some 49152, 9), (.free 49016, 9)]

instance : Inhabited (Call × ℕ) := ⟨(.free 0, 0)⟩

theorem allocator_sound_fiveCalls :
    ∃ r : Lts.Run start (step 8192) fiveCalls.length,
      (∀ k, k ≤ fiveCalls.length → start (r.state k) ∨ ∃ frees, Sound 8192 (r.state k) frees) ∧
      (r.state fiveCalls.length).live.length = 1 := by
  have hstart : start ⟨⟨fun _ => 0, fun _ => 0, 0, []⟩, []⟩ := ⟨rfl, rfl, rfl⟩
  obtain ⟨r, hok, hend⟩ := Lts.exists_run_of_check (step 8192) fiveCalls
    (fun _ m l => legal 8192 m l.1) (fun m => m.live.length = 1) hstart (by decide)
  have hmeets : r.Meets fun m l => Legal 8192 m l.1 := fun k hk => legal_of_test (hok k hk)
  exact ⟨r, (allocator_sound (by decide) r hmeets).1, by simpa using hend⟩

end Os132.User

import Os132.User.FreeList

/-!
# The joins of `free`

`free` puts the block into the list behind the place its search found, and lets first the block
and then its predecessor take in what follows. Written in this order both joins are one step,
which may shorten the list by one block and leaves what the blocks cover as it was.
-/

namespace Os132.User

open Cover

/-- `a` takes in the next block of the list if it ends there. -/
def absorb (h : Heap) (a : ℕ) : Heap :=
  if plus a (h.size a) = h.ptr a then
    (h.setSize a ((h.size a + h.size (h.ptr a)) % WORD)).setPtr a (h.ptr (h.ptr a))
  else h

/-- `bp` put behind `p`. -/
def link (h : Heap) (bp p : ℕ) : Heap := (h.setPtr bp (h.ptr p)).setPtr p bp

/-- `p` made as large as itself and `q`, and pointing where `q` points. -/
def grow (h : Heap) (p q : ℕ) : Heap := (h.setSize p (h.size p + h.size q)).setPtr p (h.ptr q)

@[simp] lemma grow_chunks (h : Heap) (p q : ℕ) : (grow h p q).chunks = h.chunks := rfl

@[simp] lemma grow_size_self (h : Heap) (p q : ℕ) : (grow h p q).size p = h.size p + h.size q := by
  simp [grow, Heap.setSize, Heap.setPtr]

@[simp] lemma grow_ptr_self (h : Heap) (p q : ℕ) : (grow h p q).ptr p = h.ptr q := by
  simp [grow, Heap.setSize, Heap.setPtr]

lemma grow_size (h : Heap) {p q x : ℕ} (hx : x ≠ p) : (grow h p q).size x = h.size x := by
  simp [grow, Heap.setSize, Heap.setPtr, Function.update_of_ne hx]

lemma grow_ptr (h : Heap) {p q x : ℕ} (hx : x ≠ p) : (grow h p q).ptr x = h.ptr x := by
  simp [grow, Heap.setSize, Heap.setPtr, Function.update_of_ne hx]

@[simp] lemma link_size (h : Heap) (bp p : ℕ) : (link h bp p).size = h.size := rfl

lemma absorb_size (h : Heap) {p x : ℕ} (hx : x ≠ p) : (absorb h p).size x = h.size x := by
  unfold absorb
  split
  · simp [Heap.setSize, Heap.setPtr, Function.update_of_ne hx]
  · rfl

@[simp] lemma absorb_chunks (h : Heap) (p : ℕ) : (absorb h p).chunks = h.chunks := by
  unfold absorb
  split <;> rfl

/-- The two joins of `free` are those of a list into which `bp` has been put. -/
lemma join_eq (h : Heap) {bp p : ℕ} (hbp : bp ≠ p) (hptr : h.ptr p ≠ bp)
    (hfar : plus bp (h.size bp) = h.ptr p → h.ptr p ≠ p) :
    joinLower (joinUpper h bp p) bp p = absorb (absorb (link h bp p) bp) p := by
  have hupper : absorb (link h bp p) bp = (joinUpper h bp p).setPtr p bp := by
    have hlp : (link h bp p).ptr bp = h.ptr p := by
      simp [link, Heap.setPtr, Function.update_of_ne hbp]
    by_cases he : plus bp (h.size bp) = h.ptr p
    · have hlq : (link h bp p).ptr (h.ptr p) = h.ptr (h.ptr p) := by
        simp [link, Heap.setPtr, Function.update_of_ne hptr, Function.update_of_ne (hfar he)]
      rw [absorb, hlp, link_size, if_pos he, hlq, joinUpper, if_pos he]
      simp only [link, Heap.setPtr, Heap.setSize, Heap.mk.injEq, and_true]
      funext x
      by_cases hx : x = p
      · subst hx
        simp [Function.update_of_ne hbp.symm]
      · by_cases hxb : x = bp
        · subst hxb
          simp [Function.update_of_ne hx]
        · simp [Function.update_of_ne hx, Function.update_of_ne hxb]
    · rw [absorb, hlp, link_size, if_neg he, joinUpper, if_neg he]
      rfl
  rw [hupper]
  have hp : ((joinUpper h bp p).setPtr p bp).ptr p = bp := by
    simp [Heap.setPtr]
  have hb : ((joinUpper h bp p).setPtr p bp).ptr bp = (joinUpper h bp p).ptr bp := by
    simp [Heap.setPtr, Function.update_of_ne hbp]
  have hs : ((joinUpper h bp p).setPtr p bp).size = (joinUpper h bp p).size := rfl
  rw [absorb, hp, hb, hs, joinLower]
  split
  · simp [Heap.setPtr, Heap.setSize]
  · rfl

lemma plus_eq {p n : ℕ} (hw : p + n * HEADER < WORD) : plus p n = p + n * HEADER :=
  Nat.mod_eq_of_lt hw

namespace Rep

variable {base : ℕ} {loose loose' : List ℕ} {h : Heap} {c live a b : List ℕ} {p q bp : ℕ}

lemma notMem_sides (r : Rep base loose h (a ++ p :: b) live) : p ∉ a ∧ p ∉ b := by
  have := r.nodup
  simp only [List.nodup_append, List.nodup_cons] at this
  constructor
  · intro hp
    exact this.2.2 p hp p (by simp) rfl
  · exact this.2.1.1

lemma absorb_far (r : Rep base loose' h (a ++ p :: b) live) (hne : plus p (h.size p) ≠ h.ptr p)
    (hl : ∀ x ∈ loose', x = p ∨ x ∈ loose) (hbound : p + h.size p * HEADER < WORD) :
    Rep base loose h (a ++ p :: b) live := by
  obtain ⟨hpa, hpb⟩ := r.notMem_sides
  have hg := List.isChain_split.1 r.gaps
  have hkeep : ∀ x, x ≠ p → ∀ y, Before h loose' x y → Before h loose x y := by
    intro x hx y hxy
    refine ⟨hxy.1, hxy.2.1, fun he => ?_⟩
    have := hl x (hxy.2.2 he)
    tauto
  constructor
  · exact r.first
  · exact r.linked
  · apply List.isChain_split.2
    constructor
    · apply isChain_congr _ hg.1
      intro x hx
      apply hkeep
      rintro rfl
      exact hpa hx
    · cases b with
      | nil => simp
      | cons q b =>
        apply List.isChain_cons_cons.2
        constructor
        · have hpq := r.before
          refine ⟨hpq.1, hpq.2.1, fun he => ?_⟩
          rw [plus_eq hbound, r.ptr_eq] at hne
          exact absurd he hne
        · apply List.IsChain.imp_of_mem_imp _ (List.isChain_cons_cons.1 hg.2).2
          intro x y hx _
          apply hkeep
          rintro rfl
          exact hpb hx
  · exact r.base_size
  · exact r.base_live
  · exact r.placed
  · exact r.once
  · exact r.covers

/-- The block `p` has grown over the next one, `q`. -/
lemma absorb_near (r : Rep base loose' h (a ++ p :: q :: b) live) (he : p + h.size p * HEADER = q)
    (hp : p ≠ base) (hl : ∀ x ∈ loose', x = p ∨ x ∈ loose) (hq : q ∉ loose') :
    Rep base loose (grow h p q) (a ++ p :: b) live := by
  obtain ⟨hpa, hpb⟩ := r.notMem_sides
  have hqb : q ∉ b := by
    have heq : a ++ p :: q :: b = (a ++ [p]) ++ q :: b := by simp
    exact (heq ▸ r).notMem_sides.2
  have hqp : q ≠ p := by
    intro hqp
    exact hpb (by simp [hqp])
  have hpb' : p ∉ b := fun hm => hpb (by simp [hm])
  have hlive : p ∉ live := r.notMem_live (by simp)
  have hg := List.isChain_split.1 r.gaps
  have hpq := r.before
  have hqbase : q ≠ base := by
    have := r.base_le (p := p) (by simp)
    have := hpq.1
    omega
  have hplq := r.placed q (by simp) hqbase
  have hplp := r.placed p (by simp) hp
  have hkeep : ∀ x, x ≠ p → ∀ y, Before h loose' x y → Before (grow h p q) loose x y := by
    intro x hx y hxy
    refine ⟨hxy.1, by rw [grow_size h hx]; exact hxy.2.1, fun hxe => ?_⟩
    rw [grow_size h hx] at hxe
    have := hl x (hxy.2.2 hxe)
    tauto
  have hsame : ∀ l : List ℕ, p ∉ l → blocks (grow h p q) l = blocks h l := by
    intro l hl
    apply blocks_congr
    rintro x hx
    apply grow_size
    rintro rfl
    exact hl hx
  constructor
  · rw [head_mid a b (q :: b)]
    exact r.first
  · have heq : a ++ p :: q :: b = (a ++ [p]) ++ q :: b := by simp
    apply linked_mid r.linked_parts.1 (heq ▸ r).linked_parts.2
    · rintro x hx
      apply grow_ptr
      rintro rfl
      exact hpa hx
    · rintro x hx
      apply grow_ptr
      rintro rfl
      exact hpb' hx
    · rw [grow_ptr_self]
      exact (heq ▸ r).ptr_eq
  · apply List.isChain_split.2
    constructor
    · apply isChain_congr _ hg.1
      intro x hx
      apply hkeep
      rintro rfl
      exact hpa hx
    · have hqc := List.isChain_cons.1 (List.isChain_cons_cons.1 hg.2).2
      apply List.isChain_cons.2
      constructor
      · intro y hy
        have hqy := hqc.1 y hy
        have hsum : p + (h.size p + h.size q) * HEADER = q + h.size q * HEADER := by
          rw [Nat.add_mul]
          omega
        simp only [Before, grow_size_self, hsum]
        refine ⟨by have := hqy.1; omega, hqy.2.1, fun hye => ?_⟩
        exact absurd (hqy.2.2 hye) hq
      · apply List.IsChain.imp_of_mem_imp _ hqc.2
        intro x y hx _
        apply hkeep
        rintro rfl
        exact hpb' hx
  · rw [grow_size h hp.symm]
    exact r.base_size
  · exact r.base_live
  · intro x hx hxb
    by_cases hxp : x = p
    · subst hxp
      rw [grow_size_self, Nat.add_mul]
      omega
    · rw [grow_size h hxp]
      apply r.placed x _ hxb
      simp only [List.mem_append, List.mem_cons] at hx ⊢
      tauto
  · exact r.once
  · intro x
    rw [grow_chunks, ← r.covers x]
    simp only [blocks_append, blocks_cons, cover_append, hsame a hpa, hsame b hpb', hsame live hlive,
      grow_size_self, Nat.add_mul, cover_cut, he]

/-- What `absorb` does to the list: the block `p` stays, the next one may be gone. -/
theorem absorb_rep (loose : List ℕ) (r : Rep base loose' h (a ++ p :: b) live) (hpb : p ≠ base ∨ b ≠ [])
    (hl : ∀ x ∈ loose', x = p ∨ x ∈ loose) (hb : ∀ x ∈ b, x ∉ loose') :
    ∃ b', Rep base loose (absorb h p) (a ++ p :: b') live ∧
      (∀ x ∈ a ++ p :: b, ∃ y ∈ a ++ p :: b', h.size x ≤ (absorb h p).size y) := by
  have hbound : p + h.size p * HEADER < WORD := by
    by_cases hp : p = base
    · cases b with
      | nil => exact absurd hpb (by simp [hp])
      | cons q b =>
        have hpq := r.before.1
        have := r.placed q (by simp) (by omega)
        rw [hp, r.base_size]
        omega
    · exact (r.placed p (by simp) hp).2.2
  by_cases he : plus p (h.size p) = h.ptr p
  · cases b with
    | nil =>
      have hp : p ≠ base := by simpa using hpb
      rw [r.ptr_eq, plus_eq hbound, List.headD_nil] at he
      have := r.placed p (by simp) hp
      omega
    | cons q b =>
      have hptr : h.ptr p = q := r.ptr_eq
      have hpq := r.before.1
      have hend : p + h.size p * HEADER = q := by rw [← plus_eq hbound, he, hptr]
      have hp : p ≠ base := by
        intro hp
        rw [hp, r.base_size] at hend
        omega
      have hq := r.placed q (by simp) (by have := r.base_le (p := p) (by simp); omega)
      have hsum : (h.size p + h.size q) % WORD = h.size p + h.size q := by
        apply Nat.mod_eq_of_lt
        simp only [HEADER] at hq hend
        omega
      have habs : absorb h p = grow h p q := by
        rw [absorb, if_pos he, hptr, hsum, grow]
      rw [habs]
      refine ⟨b, r.absorb_near hend hp hl (hb q (by simp)), fun x hx => ?_⟩
      by_cases hxp : x = p ∨ x = q
      · refine ⟨p, by simp, ?_⟩
        rw [grow_size_self]
        rcases hxp with rfl | rfl <;> omega
      · simp only [not_or] at hxp
        refine ⟨x, ?_, by rw [grow_size h hxp.1]⟩
        simp only [List.mem_append, List.mem_cons] at hx ⊢
        tauto
  · refine ⟨b, ?_, fun x hx => ⟨x, hx, ?_⟩⟩
    · rw [absorb, if_neg he]
      exact r.absorb_far he hl hbound
    · rw [absorb, if_neg he]

/-- Putting a block in use into the list at its place. -/
lemma link_rep (r : Rep base [] h (a ++ p :: b) (bp :: live)) (hp : p < bp) (hb : ∀ q ∈ b, bp < q) :
    Rep base [bp, p] (link h bp p) (a ++ p :: bp :: b) live := by
  obtain ⟨hpa, hpb⟩ := r.notMem_sides
  have hbase : bp ≠ base := by
    rintro rfl
    exact r.base_live (by simp)
  have hbpl := r.placed bp (by simp) hbase
  have hne : ∀ x ∈ a ++ p :: b, x ≠ bp := by
    rintro x hx rfl
    exact r.notMem_live hx (by simp)
  have hg := List.isChain_split.1 r.gaps
  have hptr : ∀ x, x ≠ p → x ≠ bp → (link h bp p).ptr x = h.ptr x := by
    intro x hx hx'
    simp [link, Heap.setPtr, Function.update_of_ne hx, Function.update_of_ne hx']
  have hptrp : (link h bp p).ptr p = bp := by
    simp [link, Heap.setPtr]
  have hptrbp : (link h bp p).ptr bp = h.ptr p := by
    have : bp ≠ p := by omega
    simp [link, Heap.setPtr, Function.update_of_ne this]
  have hkeep : ∀ x y, Before h [] x y → Before (link h bp p) [bp, p] x y := by
    intro x y hxy
    exact ⟨hxy.1, hxy.2.1, fun hxe => absurd (hxy.2.2 hxe) (by simp)⟩
  constructor
  · rw [head_mid a (bp :: b) b]
    exact r.first
  · have hbefore : ∀ x ∈ a, (link h bp p).ptr x = h.ptr x := by
      intro x hx
      apply hptr
      · rintro rfl
        exact hpa hx
      · exact hne x (by simp [hx])
    have hbehind : ∀ x ∈ b, (link h bp p).ptr x = h.ptr x := by
      intro x hx
      apply hptr
      · rintro rfl
        exact hpb hx
      · exact hne x (by simp [hx])
    have hfront : ((a ++ p :: []) ++ [bp]).IsChain fun x y => (link h bp p).ptr x = y :=
      linked_mid r.linked_parts.1 (by simp) hbefore (by simp) hptrp
    have hback : (b ++ [base]).IsChain fun x y => (link h bp p).ptr x = y := by
      apply isChain_congr _ r.linked_parts.2
      rintro x hx y rfl
      exact hbehind x hx
    have hmid := linked_mid hfront hback (fun x _ => rfl) (fun x _ => rfl) (hptrbp.trans r.ptr_eq)
    simpa using hmid
  · apply List.isChain_split.2
    constructor
    · exact hg.1.imp hkeep
    · have hq := List.isChain_cons.1 hg.2
      apply List.isChain_cons_cons.2
      constructor
      · refine ⟨hp, ?_, fun _ => by simp⟩
        change p + h.size p * HEADER ≤ bp
        by_cases hpbase : p = base
        · rw [hpbase, r.base_size]
          omega
        · have := r.separate (p := p) (q := bp) (by simp) hpbase (by simp)
          simp only [Separate] at this
          omega
      · apply List.isChain_cons.2
        constructor
        · intro y hy
          have hyb : y ∈ b := List.mem_of_mem_head? hy
          have hlt := hb y hyb
          refine ⟨hlt, ?_, fun _ => by simp⟩
          change bp + h.size bp * HEADER ≤ y
          have := r.separate (p := y) (q := bp) (by simp [hyb]) (by omega) (by simp)
          simp only [Separate] at this
          omega
        · exact hq.2.imp hkeep
  · exact r.base_size
  · intro hm
    exact r.base_live (by simp [hm])
  · intro x hx hxb
    apply r.placed x _ hxb
    simp only [List.mem_append, List.mem_cons] at hx ⊢
    tauto
  · exact r.once
  · intro x
    have hsame : ∀ l, blocks (link h bp p) l = blocks h l := fun l => rfl
    change _ = cover h.chunks x
    rw [← r.covers x, hsame]
    apply cover_perm
    apply List.Perm.map
    exact perm_across a b live p bp

lemma setFreep (r : Rep base loose h c live) (p : ℕ) : Rep base loose (h.setFreep p) c live := by
  cases r
  constructor <;> assumption

/-- `free` of a block in use comes to its end, and the list has taken the block in. -/
theorem free_rep (r : Rep base [] h c live) (hf : h.freep ∈ c) (hbp : bp ∈ live) :
    ∃ h' c', (∀ fuel, 2 * c.length < fuel → free fuel h (plus bp 1) = some h') ∧
      Rep base [] h' c' (live.erase bp) ∧ h'.freep ∈ c' ∧ h'.chunks = h.chunks ∧
      (∃ y ∈ c', h.size bp ≤ h'.size y) ∧ ∀ x ∈ live, x ≠ bp → h'.size x = h.size x := by
  have hbase : bp ≠ base := by
    rintro rfl
    exact r.base_live hbp
  have hpl := r.placed bp (by simp [hbp]) hbase
  have hplus : plus bp 1 - HEADER = bp := by
    rw [plus_eq (by simp only [HEADER] at hpl ⊢; omega)]
    omega
  have hbpc : bp ∉ c := fun hm => r.notMem_live hm hbp
  obtain ⟨a, p, b, rfl, hp, hb, hslot⟩ := r.findSlot_of_mem hf (by omega) hbpc
  have hlink := (r.perm (List.perm_cons_erase hbp)).link_rep hp hb
  have heq : a ++ p :: bp :: b = (a ++ [p]) ++ bp :: b := by simp
  have hb' : ∀ x ∈ b, x ∉ [bp, p] := by
    intro x hx hm
    have := hb x hx
    simp only [List.mem_cons, List.not_mem_nil, or_false] at hm
    omega
  obtain ⟨b₁, r₁, hgrow₁⟩ := (heq ▸ hlink).absorb_rep [p] (Or.inl hbase) (by simp) hb'
  have heq₁ : (a ++ [p]) ++ bp :: b₁ = a ++ p :: bp :: b₁ := by simp
  rw [heq₁] at r₁ hgrow₁
  have hp₁ : ∀ x ∈ bp :: b₁, x ∉ [p] := by
    intro x hx hm
    have := (r₁.notMem_sides).2
    simp only [List.mem_singleton] at hm
    exact this (hm ▸ hx)
  obtain ⟨b₂, r₂, hgrow₂⟩ := r₁.absorb_rep [] (Or.inr (by simp)) (by simp) hp₁
  refine ⟨_, _, fun fuel hfuel => ?_, r₂.setFreep p, ?_, ?_, ?_, fun x hx hxb => ?_⟩
  · rw [free, hplus]
    simp only [hslot fuel hfuel, Option.map_some]
    rw [join_eq h (by omega)]
    · rw [r.ptr_eq]
      cases b with
      | nil => exact hbase.symm
      | cons q b =>
        have := hb q (by simp)
        simp only [List.headD_cons]
        omega
    · intro he
      rw [plus_eq hpl.2.2] at he
      omega
  · change p ∈ _
    simp
  · simp [Heap.setFreep, link, Heap.setPtr]
  · obtain ⟨y, hy, hle⟩ := hgrow₁ bp (by simp)
    obtain ⟨z, hz, hle'⟩ := hgrow₂ y hy
    exact ⟨z, hz, by rw [link_size] at hle; exact hle.trans hle'⟩
  · change (absorb _ p).size x = _
    have hxp : x ≠ p := by
      rintro rfl
      exact r.notMem_live (by simp) hx
    rw [absorb_size _ hxp, absorb_size _ hxb, link_size]

end Rep

end Os132.User

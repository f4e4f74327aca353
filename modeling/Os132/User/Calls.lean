import Os132.User.Search

/-!
# The calls of the allocator

`morecore` and the whole of `malloc`, from a heap that meets the invariant: each comes to its end
and the heap meets it again. After one call of `sbrk` the search needs no other.
-/

namespace Os132.User

open Cover

/-- Memory at `p` that lies above the static header, not next to it, and above all of `chunks`. -/
def Fresh (base : ℕ) (h : Heap) (p bytes : ℕ) : Prop :=
  base + HEADER < p ∧ p + bytes < WORD ∧ ∀ c ∈ h.chunks, c.1 + c.2 ≤ p

lemma refill_none {h : Heap} {sbrk : ℕ → ℕ → Option ℕ} {n fuel : ℕ} (hw : request n * HEADER < WORD)
    (hp : sbrk 0 (request n * HEADER) = none) : refill n sbrk fuel 0 h = some (h, 0) := by
  rw [refill, morecore, Nat.mod_eq_of_lt hw, hp]
  rfl

namespace Rep
variable {base : ℕ} {h : Heap} {c live a b : List ℕ} {p q n : ℕ}

/-- Fresh memory lies above every block. -/
lemma lt_of_fresh {bytes : ℕ} (r : Rep base [] h c live) (hf : Fresh base h p bytes)
    (hq : q ∈ c ++ live) : q < p := by
  by_cases hb : q = base
  · have := hf.1
    omega
  · have hpl := r.placed q hq hb
    have hcov : 0 < cover h.chunks q := by
      rw [← r.covers q]
      exact cover_pos_iff.2 ⟨_, mem_blocks hq, by simp only [Covers, HEADER]; omega⟩
    obtain ⟨d, hd, hin⟩ := cover_pos_iff.1 hcov
    have := hf.2.2 d hd
    have := hin.2
    omega

/-- What `sbrk` gave counts as a block in use until `free` puts it into the list. -/
lemma chunk_rep (r : Rep base [] h c live) (hn : 0 < n) (hf : Fresh base h p (n * HEADER)) :
    Rep base [] ({ h with chunks := (p, n * HEADER) :: h.chunks }.setSize p n) c (p :: live) := by
  have hne : ∀ x ∈ c ++ live, x ≠ p := fun x hx => (r.lt_of_fresh hf hx).ne
  have hsize : ∀ x, x ≠ p →
      ({ h with chunks := (p, n * HEADER) :: h.chunks }.setSize p n).size x = h.size x := by
    intro x hx
    simp [Heap.setSize, Function.update_of_ne hx]
  have hself : ({ h with chunks := (p, n * HEADER) :: h.chunks }.setSize p n).size p = n := by
    simp [Heap.setSize]
  constructor
  · exact r.first
  · exact r.linked
  · apply List.IsChain.imp_of_mem_imp _ r.gaps
    intro x y hx _ hxy
    simpa only [Before, hsize x (hne x (by simp [hx]))] using hxy
  · rw [hsize base (hne base (by simp [r.base_mem]))]
    exact r.base_size
  · intro hm
    rcases List.mem_cons.1 hm with he | hm
    · exact hne base (by simp [r.base_mem]) he
    · exact r.base_live hm
  · intro x hx hxb
    by_cases hxp : x = p
    · subst hxp
      rw [hself]
      exact ⟨hn, hf.1, hf.2.1⟩
    · rw [hsize x hxp]
      apply r.placed x _ hxb
      simp only [List.mem_append, List.mem_cons] at hx ⊢
      tauto
  · intro x
    change cover ((p, n * HEADER) :: h.chunks) x ≤ 1
    rw [cover_cons]
    split
    · rename_i hin
      have : ¬0 < cover h.chunks x := by
        intro hpos
        obtain ⟨d, hd, hdx⟩ := cover_pos_iff.1 hpos
        have := hf.2.2 d hd
        have := hdx.2
        have : p ≤ x := hin.1
        omega
      omega
    · exact r.once x
  · intro x
    change _ = cover ((p, n * HEADER) :: h.chunks) x
    have hsame : ∀ l : List ℕ, (∀ y ∈ l, y ∈ c ++ live) →
        blocks ({ h with chunks := (p, n * HEADER) :: h.chunks }.setSize p n) l = blocks h l := by
      intro l hl
      apply blocks_congr
      intro y hy
      exact hsize y (hne y (hl y hy))
    rw [cover_cons, ← r.covers x]
    simp only [blocks_append, blocks_cons, cover_append, cover_cons, hself,
      hsame c (fun y hy => by simp [hy]), hsame live (fun y hy => by simp [hy])]
    omega

/-- `morecore` either leaves everything as it was or puts a block of the size asked for into the list. -/
theorem morecore_rep {nu : ℕ} {sbrk : ℕ → Option ℕ} (r : Rep base [] h c live) (hf : h.freep ∈ c)
    (hw : request nu * HEADER < WORD)
    (hs : ∀ p, sbrk (request nu * HEADER) = some p → Fresh base h p (request nu * HEADER)) :
    (∀ fuel, morecore fuel h sbrk nu = some (h, 0)) ∨
    ∃ h' c', (∀ fuel, 2 * c.length < fuel → morecore fuel h sbrk nu = some (h', h'.freep)) ∧
      Rep base [] h' c' live ∧ h'.freep ∈ c' ∧ (∃ y ∈ c', nu ≤ h'.size y) ∧
      ∀ x ∈ live, h'.size x = h.size x := by
  have hmod : request nu * HEADER % WORD = request nu * HEADER := Nat.mod_eq_of_lt hw
  have hnu : nu ≤ request nu ∧ 0 < request nu := by
    unfold request
    split <;> omega
  cases hp : sbrk (request nu * HEADER) with
  | none =>
    left
    intro fuel
    simp [morecore, hmod, hp]
  | some p =>
    right
    have hfresh := hs p hp
    obtain ⟨h', c', hrun, hr', hf', -, hlarge, hsize⟩ :=
      (r.chunk_rep hnu.2 hfresh).free_rep hf List.mem_cons_self
    rw [List.erase_cons_head] at hr'
    refine ⟨h', c', fun fuel hfuel => ?_, hr', hf', ?_, fun x hx => ?_⟩
    · simp [morecore, hmod, hp, hrun fuel hfuel]
    · obtain ⟨y, hy, hle⟩ := hlarge
      refine ⟨y, hy, ?_⟩
      simp only [Heap.setSize, Function.update_self] at hle
      omega
    · have hne : x ≠ p := (r.lt_of_fresh hfresh (by simp [hx])).ne
      rw [hsize x (by simp [hx]) hne]
      simp [Heap.setSize, Function.update_of_ne hne]

/-- With a block in the list that is large enough, the loop takes one and does not ask for memory. -/
lemma found_rep (k : ℕ) (sbrk : ℕ → ℕ → Option ℕ) (r : Rep base [] h c live) (hf : h.freep ∈ c) (hn : 0 < n)
    (hroom : ∃ x ∈ c, n ≤ h.size x) : ∃ N h' b c',
      (∀ fuel, N ≤ fuel → mallocLoop n sbrk fuel k h h.freep (h.ptr h.freep) = some (h', plus b 1)) ∧
      h'.freep ∈ c' ∧ (∀ x ∈ live, h'.size x = h.size x) ∧ h'.size b = n ∧ Rep base [] h' c' (b :: live) := by
  obtain ⟨v, hv, hl, hmem⟩ := r.cycle hf
  rcases mallocLoop_scan n k sbrk hv hl with ⟨q, hq, hqv, hqs, hrun⟩ | ⟨hsmall, -⟩
  · have hqc : q ∈ c := (hmem q).1 (by simp at hq ⊢; tauto)
    obtain ⟨h', c', b, hcarve, hr', hf', -, hb, hsize⟩ := r.carve_rep hqc ((hmem _).1 hqv) hn hqs
    refine ⟨v.length + 1, h', b, c', fun fuel hfuel => ?_, hf', hsize, hb, hr'⟩
    have := hrun (fuel - v.length - 1)
    rw [show fuel - v.length - 1 + v.length + 1 = fuel by omega] at this
    rw [this, hcarve]
  · obtain ⟨x, hx, hle⟩ := hroom
    have := hsmall x ((hmem x).2 hx)
    omega

lemma full_rep (k : ℕ) (sbrk : ℕ → ℕ → Option ℕ) (r : Rep base [] h c live) (hf : h.freep ∈ c)
    (hfull : ∀ x ∈ c, h.size x < n) : ∃ N, ∀ fuel,
      mallocLoop n sbrk (fuel + N) k h h.freep (h.ptr h.freep) = refill n sbrk fuel k h := by
  obtain ⟨v, hv, hl, hmem⟩ := r.cycle hf
  rcases mallocLoop_scan n k sbrk hv hl with ⟨q, -, hqv, hqs, -⟩ | ⟨-, hrun⟩
  · have := hfull _ ((hmem _).1 hqv)
    omega
  · exact ⟨v.length + 1, hrun⟩

/-- What `sbrk` gave is enough for the next round. -/
lemma refill_rep {sbrk : ℕ → ℕ → Option ℕ} (r : Rep base [] h c live) (hf : h.freep ∈ c) (hbase : 0 < base)
    (hn : 0 < n) (hw : request n * HEADER < WORD) (hp : sbrk 0 (request n * HEADER) = some p)
    (hs : Fresh base h p (request n * HEADER)) : ∃ N h' b c',
      (∀ fuel, N ≤ fuel → refill n sbrk fuel 0 h = some (h', plus b 1)) ∧ h'.freep ∈ c' ∧
      (∀ x ∈ live, h'.size x = h.size x) ∧ h'.size b = n ∧ Rep base [] h' c' (b :: live) := by
  have hs' : ∀ q, sbrk 0 (request n * HEADER) = some q → Fresh base h q (request n * HEADER) := by
    intro q hq
    rw [hp] at hq
    injection hq with hq
    rwa [← hq]
  rcases r.morecore_rep hf hw hs' with hfail | ⟨h', c', hmore, hr', hf', hroom, hsize⟩
  · have hnone := hfail 0
    rw [morecore, Nat.mod_eq_of_lt hw, hp] at hnone
    simp [free, findSlot] at hnone
  · have hne : h'.freep ≠ 0 := by
      have := hr'.base_le (p := h'.freep) (by simp [hf'])
      omega
    obtain ⟨N, h'', b, c'', hrun, hf'', hsize', hb, hr''⟩ := hr'.found_rep 1 sbrk hf' hn hroom
    refine ⟨N + 2 * c.length + 1, h'', b, c'', fun fuel hfuel => ?_, hf'',
      fun x hx => (hsize' x hx).trans (hsize x hx), hb, hr''⟩
    rw [refill, hmore fuel (by omega), Option.bind_some, if_neg hne, hrun fuel (by omega)]

/-- The loop of `malloc`, from `freep` on, comes to its end. -/
theorem mallocLoop_rep {sbrk : ℕ → ℕ → Option ℕ} (r : Rep base [] h c live) (hf : h.freep ∈ c)
    (hbase : 0 < base) (hn : 0 < n) (hw : request n * HEADER < WORD)
    (hs : ∀ p, sbrk 0 (request n * HEADER) = some p → Fresh base h p (request n * HEADER)) :
    ∃ N h' res c', (∀ fuel, N ≤ fuel →
        mallocLoop n sbrk fuel 0 h h.freep (h.ptr h.freep) = some (h', res)) ∧ h'.freep ∈ c' ∧
      (∀ x ∈ live, h'.size x = h.size x) ∧
      ((res = 0 ∧ Rep base [] h' c' live) ∨
        ∃ b, res = plus b 1 ∧ h'.size b = n ∧ Rep base [] h' c' (b :: live)) := by
  by_cases hroom : ∃ x ∈ c, n ≤ h.size x
  · obtain ⟨N, h', b, c', hrun, hf', hsize, hb, hr'⟩ := r.found_rep 0 sbrk hf hn hroom
    exact ⟨N, h', plus b 1, c', hrun, hf', hsize, Or.inr ⟨b, rfl, hb, hr'⟩⟩
  · obtain ⟨N, hfull⟩ := r.full_rep 0 sbrk hf (n := n) (by simpa using hroom)
    have hlater : ∀ fuel, N ≤ fuel →
        mallocLoop n sbrk fuel 0 h h.freep (h.ptr h.freep) = refill n sbrk (fuel - N) 0 h := by
      intro fuel hfuel
      rw [← hfull (fuel - N), Nat.sub_add_cancel hfuel]
    cases hp : sbrk 0 (request n * HEADER) with
    | none =>
      refine ⟨N, h, 0, c, fun fuel hfuel => ?_, hf, fun x _ => rfl, Or.inl ⟨rfl, r⟩⟩
      rw [hlater fuel hfuel, refill_none hw hp]
    | some p =>
      obtain ⟨N', h', b, c', hrun, hf', hsize, hb, hr'⟩ := r.refill_rep hf hbase hn hw hp (hs p hp)
      refine ⟨N + N', h', plus b 1, c', fun fuel hfuel => ?_, hf', hsize, Or.inr ⟨b, rfl, hb, hr'⟩⟩
      rw [hlater fuel (by omega), hrun (fuel - N) (by omega)]

end Rep

end Os132.User

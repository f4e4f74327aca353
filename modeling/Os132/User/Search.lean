import Os132.User.Joins

/-!
# The search of `malloc`

`malloc` goes once through the list. It takes a block it finds large enough, whole or its tail;
at the end of the round it has `morecore` put new memory into the list, and the next round finds
a block there.
-/

namespace Os132.User

open Cover

namespace Rep
variable {base : ℕ} {h : Heap} {c live a b : List ℕ} {p q n : ℕ}

/-- From any block the pointers lead once through the whole list and back to it. -/
lemma cycle {loose : List ℕ} (r : Rep base loose h c live) (hp : p ∈ c) :
    ∃ v, p ∉ v ∧ (p :: (v ++ [p])).IsChain (fun a b => h.ptr a = b) ∧ ∀ x, x ∈ v ++ [p] ↔ x ∈ c := by
  obtain ⟨a, b, rfl⟩ := List.append_of_mem hp
  obtain ⟨hpa, hpb⟩ := r.notMem_sides
  refine ⟨b ++ a, by simp [hpa, hpb], ?_, fun x => by simp; tauto⟩
  have hln := r.linked
  rw [List.append_assoc, List.cons_append, List.isChain_split] at hln
  obtain ⟨d, hd⟩ : ∃ d, a ++ [p] = base :: d := by
    have hf := r.first
    cases a with
    | nil => exact ⟨[], by simpa using hf⟩
    | cons e a => exact ⟨a ++ [p], by simpa using hf⟩
  have heq : p :: (b ++ a ++ [p]) = (p :: b) ++ base :: d := by
    rw [List.append_assoc, hd, List.cons_append]
  rw [heq, List.isChain_split]
  exact ⟨by simpa using hln.2, hd ▸ hln.1⟩

end Rep

/-- What the loop of `malloc` does at the end of a round through the list. -/
def refill (nunits : ℕ) (sbrk : ℕ → ℕ → Option ℕ) (fuel k : ℕ) (h : Heap) : Option (Heap × ℕ) :=
  (morecore fuel h (sbrk k) nunits).bind fun r =>
    if r.2 = 0 then some (r.1, 0)
    else mallocLoop nunits sbrk fuel (k + 1) r.1 r.2 (r.1.ptr r.2)

/-- A round through the list finds a block, or ends at `freep` with every block too small. -/
lemma mallocLoop_scan {h : Heap} (nunits k : ℕ) (sbrk : ℕ → ℕ → Option ℕ) {p : ℕ} {v : List ℕ}
    (hv : h.freep ∉ v) (hl : (p :: (v ++ [h.freep])).IsChain fun a b => h.ptr a = b) :
    (∃ q ∈ p :: v, h.ptr q ∈ v ++ [h.freep] ∧ nunits ≤ h.size (h.ptr q) ∧ ∀ fuel,
      mallocLoop nunits sbrk (fuel + v.length + 1) k h p (h.ptr p) = some (carve h nunits q (h.ptr q))) ∨
    ((∀ x ∈ v ++ [h.freep], h.size x < nunits) ∧ ∀ fuel,
      mallocLoop nunits sbrk (fuel + v.length + 1) k h p (h.ptr p) = refill nunits sbrk fuel k h) := by
  induction v generalizing p with
  | nil =>
    have hptr : h.ptr p = h.freep := by simpa using hl
    by_cases hs : nunits ≤ h.size (h.ptr p)
    · refine Or.inl ⟨p, by simp, by simp [hptr], hs, fun fuel => ?_⟩
      rw [mallocLoop, if_pos hs]
    · refine Or.inr ⟨by simpa [hptr] using hs, fun fuel => ?_⟩
      rw [mallocLoop, if_neg hs, if_pos hptr]
      rfl
  | cons w v ih =>
    have hptr : h.ptr p = w := (List.isChain_cons_cons.1 hl).1
    by_cases hs : nunits ≤ h.size (h.ptr p)
    · refine Or.inl ⟨p, by simp, by simp [hptr], hs, fun fuel => ?_⟩
      rw [mallocLoop, if_pos hs]
    · have hne : h.ptr p ≠ h.freep := by
        intro he
        exact hv (by simp [← he, hptr])
      have hrest : ∀ fuel, mallocLoop nunits sbrk (fuel + (w :: v).length + 1) k h p (h.ptr p) =
          mallocLoop nunits sbrk (fuel + v.length + 1) k h w (h.ptr w) := by
        intro fuel
        rw [List.length_cons, ← Nat.add_assoc, mallocLoop, if_neg hs, if_neg hne, hptr]
      rcases ih (fun hm => hv (by simp [hm])) (List.isChain_cons_cons.1 hl).2 with
        ⟨q, hq, hqv, hqs, hrun⟩ | ⟨hsmall, hrun⟩
      · refine Or.inl ⟨q, by simp at hq ⊢; tauto, by simp at hqv ⊢; tauto, hqs, fun fuel => ?_⟩
        rw [hrest, hrun]
      · refine Or.inr ⟨?_, fun fuel => by rw [hrest, hrun]⟩
        intro x hx
        rcases List.mem_cons.1 hx with rfl | hx
        · rw [← hptr]
          omega
        · exact hsmall x hx

namespace Rep

variable {base : ℕ} {h : Heap} {c live a b : List ℕ} {p q n : ℕ}

/-- The block `p` given away whole. -/
lemma unlink_rep (r : Rep base [] h (a ++ q :: p :: b) live) :
    Rep base [] (h.setPtr q (h.ptr p)) (a ++ q :: b) (p :: live) := by
  obtain ⟨hqa, hqb⟩ := r.notMem_sides
  have hqp : q ∉ b := fun hm => hqb (by simp [hm])
  have hg := List.isChain_split.1 r.gaps
  have hptr : ∀ x, x ≠ q → (h.setPtr q (h.ptr p)).ptr x = h.ptr x := by
    intro x hx
    simp [Heap.setPtr, Function.update_of_ne hx]
  have hbefore := r.before
  have hpbase : p ≠ base := by
    have := r.base_le (p := q) (by simp)
    have := hbefore.1
    omega
  have hpl := r.placed p (by simp) hpbase
  constructor
  · rw [head_mid a b (p :: b)]
    exact r.first
  · have heq : a ++ q :: p :: b = (a ++ [q]) ++ p :: b := by simp
    apply linked_mid r.linked_parts.1 (heq ▸ r).linked_parts.2
    · intro x hx
      apply hptr
      rintro rfl
      exact hqa hx
    · intro x hx
      apply hptr
      rintro rfl
      exact hqp hx
    · have hself : (h.setPtr q (h.ptr p)).ptr q = h.ptr p := by simp [Heap.setPtr]
      rw [hself]
      exact (heq ▸ r).ptr_eq
  · apply List.isChain_split.2
    constructor
    · exact hg.1
    · have hp := List.isChain_cons.1 (List.isChain_cons_cons.1 hg.2).2
      apply List.isChain_cons.2
      constructor
      · intro y hy
        have hpy := hp.1 y hy
        refine ⟨hbefore.1.trans hpy.1, hbefore.2.1.trans hpy.1.le, fun he => ?_⟩
        change q + h.size q * HEADER = y at he
        have := hbefore.2.1
        have := hpy.1
        omega
      · exact hp.2
  · exact r.base_size
  · intro hm
    rcases List.mem_cons.1 hm with he | hm
    · exact hpbase he.symm
    · exact r.base_live hm
  · intro x hx hxb
    apply r.placed x _ hxb
    simp only [List.mem_append, List.mem_cons] at hx ⊢
    tauto
  · exact r.once
  · intro x
    have hsame : ∀ l, blocks (h.setPtr q (h.ptr p)) l = blocks h l := fun l => rfl
    change _ = cover h.chunks x
    rw [← r.covers x, hsame]
    apply cover_perm
    apply List.Perm.map
    exact (perm_across a b live q p).symm

/-- No free block and no block in use begins inside another. -/
lemma notMem_inside (r : Rep base [] h c live) (hp : p ∈ c) (hpb : p ≠ base) (hlo : p < q)
    (hhi : q < p + h.size p * HEADER) : q ∉ c ++ live := by
  obtain ⟨a, b, rfl⟩ := List.append_of_mem hp
  intro hq
  have hplp := r.placed p (by simp) hpb
  have hplq := r.placed q hq (by omega)
  have hsum := (r.covers q).le.trans (r.once q)
  have hmem : q ∈ a ++ (b ++ live) := by
    simp only [List.mem_append, List.mem_cons] at hq ⊢
    rcases hq with (hq | rfl | hq) | hq
    · simp [hq]
    · omega
    · simp [hq]
    · simp [hq]
  have hcov : 0 < cover (blocks h (a ++ (b ++ live))) q :=
    cover_pos_iff.2 ⟨_, mem_blocks hmem, by simp only [Covers, HEADER]; omega⟩
  have hin : Covers (p, h.size p * HEADER) q := by
    simp only [Covers]
    omega
  simp only [blocks_append, blocks_cons, cover_append, cover_cons, if_pos hin] at hsum hcov
  omega

/-- The tail of the block `p` given away. -/
lemma cut_rep (r : Rep base [] h c live) (hp : p ∈ c) (hn : 0 < n) (hs : n < h.size p)
    (hq : q = p + (h.size p - n) * HEADER) :
    Rep base [] ((h.setSize p (h.size p - n)).setSize q n) c (q :: live) := by
  have hpb : p ≠ base := by
    rintro rfl
    rw [r.base_size] at hs
    omega
  have hpl := r.placed p (by simp [hp]) hpb
  have hlo : p < q := by
    rw [hq]
    simp only [HEADER]
    omega
  have hend : q + n * HEADER = p + h.size p * HEADER := by
    rw [hq, Nat.add_assoc, ← Nat.add_mul]
    congr 2
    omega
  have hqin := r.notMem_inside (q := q) hp hpb hlo (by simp only [HEADER] at hend ⊢; omega)
  simp only [List.mem_append, not_or] at hqin
  have hsize : ∀ x, x ≠ p → x ≠ q → ((h.setSize p (h.size p - n)).setSize q n).size x = h.size x := by
    intro x hx hx'
    simp [Heap.setSize, Function.update_of_ne hx, Function.update_of_ne hx']
  have hsizep : ((h.setSize p (h.size p - n)).setSize q n).size p = h.size p - n := by
    simp [Heap.setSize, Function.update_of_ne hlo.ne]
  have hsizeq : ((h.setSize p (h.size p - n)).setSize q n).size q = n := by
    simp [Heap.setSize]
  have hplive := r.notMem_live hp
  constructor
  · exact r.first
  · exact r.linked
  · apply List.IsChain.imp_of_mem_imp _ r.gaps
    intro x y hx hy hxy
    by_cases hxp : x = p
    · subst hxp
      have h1 : (h.size x - n) * HEADER < h.size x * HEADER := by
        simp only [HEADER]
        omega
      have := hxy.2.1
      refine ⟨hxy.1, by rw [hsizep]; omega, fun he => ?_⟩
      rw [hsizep] at he
      omega
    · have hxq : x ≠ q := by
        rintro rfl
        exact hqin.1 hx
      simpa only [Before, hsize x hxp hxq] using hxy
  · rw [hsize base hpb.symm (by omega)]
    exact r.base_size
  · intro hm
    rcases List.mem_cons.1 hm with he | hm
    · omega
    · exact r.base_live hm
  · intro x hx hxb
    by_cases hxq : x = q
    · subst hxq
      rw [hsizeq]
      omega
    · by_cases hxp : x = p
      · subst hxp
        rw [hsizep]
        simp only [HEADER] at hpl hend ⊢
        omega
      · rw [hsize x hxp hxq]
        apply r.placed x _ hxb
        simp only [List.mem_append, List.mem_cons] at hx ⊢
        tauto
  · exact r.once
  · intro x
    change _ = cover h.chunks x
    rw [← r.covers x]
    obtain ⟨a, b, rfl⟩ := List.append_of_mem hp
    obtain ⟨hpa, hpb⟩ := r.notMem_sides
    have hsame : ∀ l : List ℕ, p ∉ l → q ∉ l →
        blocks ((h.setSize p (h.size p - n)).setSize q n) l = blocks h l := by
      intro l hpl hql
      apply blocks_congr
      intro x hx
      apply hsize
      · rintro rfl
        exact hpl hx
      · rintro rfl
        exact hql hx
    simp only [List.mem_append, List.mem_cons, not_or] at hqin
    have hcut : h.size p * HEADER = (h.size p - n) * HEADER + n * HEADER := by
      rw [← Nat.add_mul]
      congr 1
      omega
    simp only [blocks_append, blocks_cons, hsame a hpa hqin.1.1, hsame b hpb hqin.1.2.2,
      hsame live hplive hqin.2, hsizep, hsizeq, cover_append, hcut, cover_cut, ← hq]
    simp only [cover_cons]
    omega

/-- Giving away a block that is large enough. -/
theorem carve_rep (r : Rep base [] h c live) (hq : q ∈ c) (hp : h.ptr q ∈ c) (hn : 0 < n)
    (hs : n ≤ h.size (h.ptr q)) :
    ∃ h' c' b, carve h n q (h.ptr q) = (h', plus b 1) ∧ Rep base [] h' c' (b :: live) ∧ h'.freep ∈ c' ∧
      h'.chunks = h.chunks ∧ h'.size b = n ∧ ∀ x ∈ live, h'.size x = h.size x := by
  have hpb : h.ptr q ≠ base := by
    intro he
    rw [he, r.base_size] at hs
    omega
  by_cases heq : h.size (h.ptr q) = n
  · obtain ⟨a, b, rfl⟩ := List.append_of_mem hq
    cases b with
    | nil => exact absurd r.ptr_eq hpb
    | cons p b =>
      have hptr : h.ptr q = p := r.ptr_eq
      rw [hptr] at heq ⊢
      refine ⟨(h.setPtr q (h.ptr p)).setFreep q, a ++ q :: b, p, ?_, ?_, ?_, rfl, heq, fun x _ => rfl⟩
      · rw [carve, if_pos heq]
      · exact r.unlink_rep.setFreep q
      · change q ∈ _
        simp
  · have hpl := r.placed (h.ptr q) (by simp [hp]) hpb
    have hlt : n < h.size (h.ptr q) := by omega
    have hplus : plus (h.ptr q) (h.size (h.ptr q) - n) = h.ptr q + (h.size (h.ptr q) - n) * HEADER := by
      apply plus_eq
      simp only [HEADER] at hpl ⊢
      omega
    refine ⟨_, c, _, ?_, (r.cut_rep hp hn hlt rfl).setFreep q, ?_, rfl, ?_, fun x hx => ?_⟩
    · rw [carve, if_neg heq]
      simp [Heap.setSize, hplus]
    · exact hq
    · simp [Heap.setFreep, Heap.setSize]
    · have hxp : x ≠ h.ptr q := by
        rintro rfl
        exact r.notMem_live hp hx
      have hin := r.notMem_inside (q := h.ptr q + (h.size (h.ptr q) - n) * HEADER) hp hpb
        (by simp only [HEADER]; omega) (by simp only [HEADER]; omega)
      have hxq : x ≠ h.ptr q + (h.size (h.ptr q) - n) * HEADER := by
        rintro rfl
        exact hin (by simp [hx])
      simp [Heap.setFreep, Heap.setSize, Function.update_of_ne hxp, Function.update_of_ne hxq]

end Rep

end Os132.User

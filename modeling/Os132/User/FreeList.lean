import Os132.User.Malloc
import Os132.Lib.Cover
import Mathlib.Data.List.Chain

/-!
# The free list

The list begins with the static header and goes through the free blocks in the order of their
addresses back to it. Free blocks and the blocks the program holds cover every byte that `sbrk`
gave exactly once, and no other byte. Between the two joins of `free` a block may end where the
next one begins: the addresses of such blocks are listed in the invariant, which holds with an
empty list between calls.
-/

namespace Os132.User

open Cover

def blocks (h : Heap) (l : List ℕ) : List (ℕ × ℕ) := l.map fun b => (b, h.size b * HEADER)

/-- `a` lies before `b` with a gap between them, but that blocks of `loose` may meet the next. -/
def Before (h : Heap) (loose : List ℕ) (a b : ℕ) : Prop :=
  a < b ∧ a + h.size a * HEADER ≤ b ∧ (a + h.size a * HEADER = b → a ∈ loose)

/-- The list `c` of free blocks, the static header first, and the blocks `live` in use. -/
structure Rep (base : ℕ) (loose : List ℕ) (h : Heap) (c live : List ℕ) : Prop where
  first : c.head? = some base
  linked : (c ++ [base]).IsChain fun a b => h.ptr a = b
  gaps : c.IsChain (Before h loose)
  base_size : h.size base = 0
  base_live : base ∉ live
  placed : ∀ b ∈ c ++ live, b ≠ base →
    0 < h.size b ∧ base + HEADER < b ∧ b + h.size b * HEADER < WORD
  once : ∀ x, cover h.chunks x ≤ 1
  covers : ∀ x, cover (blocks h (c ++ live)) x = cover h.chunks x

section

variable {h h' : Heap} {l l' : List ℕ}

@[simp] lemma blocks_append : blocks h (l ++ l') = blocks h l ++ blocks h l' := by
  simp [blocks]

@[simp] lemma blocks_cons (b : ℕ) : blocks h (b :: l) = (b, h.size b * HEADER) :: blocks h l := rfl

lemma blocks_congr (hs : ∀ b ∈ l, h'.size b = h.size b) : blocks h' l = blocks h l := by
  apply List.map_congr_left
  intro b hb
  rw [hs b hb]

lemma mem_blocks {b : ℕ} (hb : b ∈ l) : (b, h.size b * HEADER) ∈ blocks h l :=
  List.mem_map.2 ⟨b, hb, rfl⟩

lemma perm_across (a b live : List ℕ) (p q : ℕ) :
    ((a ++ p :: q :: b) ++ live).Perm ((a ++ p :: b) ++ q :: live) := by
  have hout : ((a ++ [p]) ++ q :: (b ++ live)).Perm (q :: ((a ++ [p]) ++ (b ++ live))) := List.perm_middle
  have hin : ((a ++ p :: b) ++ q :: live).Perm (q :: ((a ++ p :: b) ++ live)) := List.perm_middle
  simpa using hout.trans (by simpa using hin.symm)

/-- A relation between neighbours may change where it holds of no first member. -/
lemma isChain_congr {R R' : ℕ → ℕ → Prop} {p : ℕ} (hR : ∀ a ∈ l, ∀ b, R a b → R' a b)
    (hl : (l ++ [p]).IsChain R) : (l ++ [p]).IsChain R' := by
  induction l with
  | nil => simp
  | cons a l ih =>
    simp only [List.cons_append, List.isChain_cons] at hl ⊢
    constructor
    · intro y hy
      exact hR a (by simp) y (hl.1 y hy)
    · apply ih _ hl.2
      intro b hb
      exact hR b (by simp [hb])

lemma head_mid (a b b' : List ℕ) (p : ℕ) : (a ++ p :: b).head? = (a ++ p :: b').head? := by
  cases a <;> rfl

/-- A circle in which the pointer of `p` skips to the head of `b`. -/
lemma linked_mid {f g : ℕ → ℕ} {a b : List ℕ} {p base : ℕ} (ha : (a ++ [p]).IsChain fun x y => f x = y)
    (hb : (b ++ [base]).IsChain fun x y => f x = y) (hga : ∀ x ∈ a, g x = f x) (hgb : ∀ x ∈ b, g x = f x)
    (hp : g p = b.headD base) : ((a ++ p :: b) ++ [base]).IsChain fun x y => g x = y := by
  rw [List.append_assoc, List.cons_append, List.isChain_split]
  constructor
  · apply isChain_congr _ ha
    rintro x hx y rfl
    exact hga x hx
  · apply List.isChain_cons.2
    constructor
    · intro y hy
      rw [hp]
      cases b with
      | nil => simpa using hy
      | cons q b => simpa using hy
    · apply isChain_congr _ hb
      rintro x hx y rfl
      exact hgb x hx

end

namespace Rep

variable {base : ℕ} {loose : List ℕ} {h : Heap} {c live a b : List ℕ} {p q bp : ℕ}

lemma sorted (r : Rep base loose h c live) : c.Pairwise (· < ·) := by
  apply List.isChain_iff_pairwise.1
  exact r.gaps.imp fun a b hab => hab.1

lemma base_le (r : Rep base loose h c live) (hp : p ∈ c ++ live) : base ≤ p := by
  by_cases hb : p = base
  · omega
  · have := (r.placed p hp hb).2.1
    omega

lemma nodup (r : Rep base loose h c live) : c.Nodup :=
  r.sorted.imp fun hab => Nat.ne_of_lt hab

lemma base_mem (r : Rep base loose h c live) : base ∈ c :=
  List.mem_of_mem_head? r.first

lemma linked_parts (r : Rep base loose h (a ++ p :: b) live) :
    (a ++ [p]).IsChain (fun x y => h.ptr x = y) ∧ (b ++ [base]).IsChain fun x y => h.ptr x = y := by
  have := r.linked
  rw [List.append_assoc, List.cons_append, List.isChain_split] at this
  exact ⟨this.1, (List.isChain_cons.1 this.2).2⟩

lemma ptr_eq (r : Rep base loose h (a ++ p :: b) live) : h.ptr p = b.headD base := by
  have := r.linked
  rw [List.append_assoc, List.cons_append, List.isChain_split] at this
  cases b with
  | nil => simpa using this.2
  | cons q b => exact (List.isChain_cons_cons.1 this.2).1

lemma before (r : Rep base loose h (a ++ p :: q :: b) live) : Before h loose p q := by
  have := List.isChain_split.1 r.gaps
  exact (List.isChain_cons_cons.1 this.2).1

/-- A free block and a block in use are separate. -/
lemma separate (r : Rep base loose h c live) (hp : p ∈ c) (hpb : p ≠ base) (hq : q ∈ live) :
    Separate (p, h.size p * HEADER) (q, h.size q * HEADER) := by
  have hqb : q ≠ base := by
    intro he
    exact r.base_live (he ▸ hq)
  have h1 := (r.placed p (by simp [hp]) hpb).1
  have h2 := (r.placed q (by simp [hq]) hqb).1
  have hsum : ∀ x, cover (blocks h c) x + cover (blocks h live) x ≤ 1 := by
    intro x
    rw [← cover_append, ← blocks_append, r.covers]
    exact r.once x
  apply separate_of_cover hsum (mem_blocks hp) (mem_blocks hq)
  · simp only [HEADER]
    omega
  · simp only [HEADER]
    omega

lemma notMem_live (r : Rep base loose h c live) (hp : p ∈ c) : p ∉ live := by
  intro hq
  by_cases hb : p = base
  · exact r.base_live (hb ▸ hq)
  · have h1 := (r.placed p (by simp [hp]) hb).1
    have := r.separate hp hb hq
    simp only [Separate, HEADER] at this
    omega

lemma perm {live' : List ℕ} (r : Rep base loose h c live) (hp : live.Perm live') :
    Rep base loose h c live' := by
  constructor
  · exact r.first
  · exact r.linked
  · exact r.gaps
  · exact r.base_size
  · exact fun hb => r.base_live (hp.mem_iff.2 hb)
  · intro b hb
    apply r.placed
    simpa [hp.mem_iff] using hb
  · exact r.once
  · intro x
    rw [← r.covers x]
    apply cover_perm
    apply List.Perm.map
    exact (List.perm_append_left_iff c).2 hp.symm

/-- From a block below `bp` on the search of `free` stops at the last such block. -/
lemma findSlot_up (r : Rep base loose h (a ++ p :: b) live) (hp : p < bp) (hbp : bp ∉ b) :
    ∃ a' p' b', a ++ p :: b = a' ++ p' :: b' ∧ p' < bp ∧ (∀ q ∈ b', bp < q) ∧
      ∀ fuel, findSlot h bp (fuel + b.length + 1) p = some p' := by
  induction b generalizing a p with
  | nil =>
    have hle : base ≤ p := r.base_le (by simp)
    refine ⟨a, p, [], rfl, hp, by simp, fun fuel => ?_⟩
    have hptr := r.ptr_eq
    simp only [List.headD_nil] at hptr
    rw [findSlot, hptr, if_neg (by omega), if_pos (by omega)]
  | cons q b ih =>
    have hptr := r.ptr_eq
    simp only [List.headD_cons] at hptr
    have hlt := r.before.1
    have hne : bp ≠ q := by
      intro he
      exact hbp (by simp [he])
    by_cases hq : bp < q
    · refine ⟨a, p, q :: b, rfl, hp, ?_, fun fuel => ?_⟩
      · have hs := (List.pairwise_append.1 r.sorted).2.1
        simp only [List.pairwise_cons] at hs
        intro y hy
        rcases List.mem_cons.1 hy with rfl | hy
        · exact hq
        · have := hs.2.1 y hy
          omega
      · rw [findSlot, hptr, if_pos ⟨hp, hq⟩]
    · have heq : a ++ p :: q :: b = (a ++ [p]) ++ q :: b := by simp
      obtain ⟨a', p', b', hab, hp', hb', hrun⟩ := ih (heq ▸ r) (by omega) (fun hb => hbp (by simp [hb]))
      refine ⟨a', p', b', heq.trans hab, hp', hb', fun fuel => ?_⟩
      rw [findSlot, hptr, if_neg (by omega), if_neg (by omega)]
      have := hrun fuel
      rwa [show fuel + (q :: b).length = fuel + b.length + 1 by simp; omega]

/-- From a block above `bp` the search goes on to the end of the list and begins anew. -/
lemma findSlot_over (r : Rep base loose h (a ++ p :: b) live) (hp : bp < p) (hb : base < bp)
    (hbp : bp ∉ a ++ p :: b) :
    ∃ a' p' b', a ++ p :: b = a' ++ p' :: b' ∧ p' < bp ∧ (∀ q ∈ b', bp < q) ∧
      ∀ fuel, findSlot h bp (fuel + b.length + 1 + (a ++ p :: b).length) p = some p' := by
  induction b generalizing a p with
  | nil =>
    obtain ⟨d, hd⟩ : ∃ d, a ++ [p] = [] ++ base :: d := by
      cases hc : a ++ [p] with
      | nil => simp at hc
      | cons e d =>
        have := r.first
        rw [hc] at this
        simp only [List.head?_cons, Option.some.injEq] at this
        exact ⟨d, by simp [this]⟩
    obtain ⟨a', p', b', hab, hp', hb', hrun⟩ := (hd ▸ r).findSlot_up hb (fun hm => hbp (hd ▸ by simp [hm]))
    refine ⟨a', p', b', hd.trans hab, hp', hb', fun fuel => ?_⟩
    have hptr := r.ptr_eq
    simp only [List.headD_nil] at hptr
    have hlen : (a ++ [p]).length = d.length + 1 := by simp [hd]
    rw [hlen, show fuel + ([] : List ℕ).length + 1 + (d.length + 1) = fuel + d.length + 1 + 1 by simp; omega,
      findSlot, hptr, if_neg (by omega), if_neg (by omega)]
    exact hrun fuel
  | cons q b ih =>
    have hptr := r.ptr_eq
    simp only [List.headD_cons] at hptr
    have hlt := r.before.1
    have heq : a ++ p :: q :: b = (a ++ [p]) ++ q :: b := by simp
    obtain ⟨a', p', b', hab, hp', hb', hrun⟩ := ih (heq ▸ r) (by omega) (heq ▸ hbp)
    refine ⟨a', p', b', heq.trans hab, hp', hb', fun fuel => ?_⟩
    have := hrun fuel
    rw [← heq] at this
    rw [show fuel + (q :: b).length + 1 + (a ++ p :: q :: b).length =
        (fuel + b.length + 1 + (a ++ p :: q :: b).length) + 1 by simp; omega,
      findSlot, hptr, if_neg (by omega), if_neg (by omega)]
    exact this

theorem findSlot_of_mem (r : Rep base loose h c live) (hp : p ∈ c) (hb : base < bp) (hbp : bp ∉ c) :
    ∃ a p' b, c = a ++ p' :: b ∧ p' < bp ∧ (∀ q ∈ b, bp < q) ∧
      ∀ fuel, 2 * c.length < fuel → findSlot h bp fuel p = some p' := by
  obtain ⟨a, b, rfl⟩ := List.append_of_mem hp
  rcases Nat.lt_trichotomy p bp with hlt | rfl | hgt
  · obtain ⟨a', p', b', hab, hp', hb', hrun⟩ := r.findSlot_up hlt (fun hm => hbp (by simp [hm]))
    refine ⟨a', p', b', hab, hp', hb', fun fuel hf => ?_⟩
    simp only [List.length_append, List.length_cons] at hf
    have := hrun (fuel - b.length - 1)
    rwa [show fuel - b.length - 1 + b.length + 1 = fuel by omega] at this
  · exact absurd hp hbp
  · obtain ⟨a', p', b', hab, hp', hb', hrun⟩ := r.findSlot_over hgt hb hbp
    refine ⟨a', p', b', hab, hp', hb', fun fuel hf => ?_⟩
    have := hrun (fuel - b.length - 1 - (a ++ p :: b).length)
    simp only [List.length_append, List.length_cons] at hf this
    rwa [show fuel - b.length - 1 - (a.length + (b.length + 1)) + b.length + 1 + (a.length + (b.length + 1)) =
      fuel by omega] at this

end Rep

end Os132.User

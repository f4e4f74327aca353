import Mathlib.Data.List.Perm.Basic
import Os132.Lib.Run
import Os132.Lib.Words
import Os132.Memory.Space

/-!
# The page allocator (kalloc.c)

The free list runs through the free pages themselves: the first word of a free page holds the address of the
next. So the list is intact only as long as nobody writes to a page that is free. `Pool` keeps track of who has
what: the pages that the allocator was given, those that its callers hold, and memory, where callers write what
they like to the pages they hold and to memory that was never given. Under that rule the list is exactly the
pages that nobody holds, in every run.
-/

namespace Os132

namespace Kalloc

open Words

def KERNBASE : Word := 0x80000000#32

/-- `P2V(4*1024*1024)` and `P2V(PHYSTOP)`, where the two phases of the initialization end. -/
def low : Word := 0x80400000#32
def high : Word := 0x8E000000#32

/-- The fields of `kmem` besides its lock, and memory. -/
structure Kmem where
  mem : ByteMem
  use_lock : Bool
  freelist : Word

/-- `memset(v, 1, PGSIZE)` -/
def junk (m : ByteMem) (v : Word) : ByteMem := fun y => if Within v 4096 y then 1#8 else m y

/-- none where the source panics; `kend` is the end of the kernel. The lock is held for the list only, but what
comes before it writes a page that nobody else has. -/
def kfree (kend : Word) (v : Word) (k : Kmem) : Option Kmem :=
  if v.toNat % 4096 ≠ 0 ∨ v < kend ∨ Memory.PHYSTOP ≤ (v - KERNBASE).toNat then none
  else some { k with mem := store (junk k.mem v) v k.freelist, freelist := v }

def kalloc (k : Kmem) : Word × Kmem :=
  if k.freelist = 0#32 then (0#32, k) else (k.freelist, { k with freelist := load k.mem k.freelist })

def PGROUNDUP (v : Word) : Word := (v + 4095#32) &&& ~~~ 4095#32

def freerangeLoop (kend vend : Word) : ℕ → Word → Kmem → Option Kmem
  | 0, _, _ => none
  | n + 1, p, k =>
    if p + 4096#32 ≤ vend then (kfree kend p k).bind (freerangeLoop kend vend n (p + 4096#32)) else some k

/-- There are `2 ^ 20` pages, so that many passes suffice. -/
def freerange (kend vstart vend : Word) (k : Kmem) : Option Kmem :=
  freerangeLoop kend vend 1048577 (PGROUNDUP vstart) k

def kinit1 (kend vstart vend : Word) (k : Kmem) : Option Kmem := freerange kend vstart vend { k with use_lock := false }

def kinit2 (kend vstart vend : Word) (k : Kmem) : Option Kmem :=
  (freerange kend vstart vend k).map fun k => { k with use_lock := true }

/-! ### The list -/

/-- From `a` the links in memory lead through the pages of the list to 0. -/
def Links (m : ByteMem) : Word → List Word → Prop
  | a, [] => a = 0#32
  | a, p :: l => a = p ∧ p ≠ 0#32 ∧ Links m (load m p) l

/-- An address that `kfree` accepts. -/
structure Page (kend p : Word) : Prop where
  aligned : p.toNat % 4096 = 0
  above : kend.toNat ≤ p.toNat
  below : p.toNat < 0x8E000000
  kernel : 0x80000000 ≤ p.toNat

variable {m m' : ByteMem} {a p v y kend vend : Word} {l : List Word} {k k' : Kmem} {i j n : ℕ}

lemma Links.congr (h : Links m a l) (hm : ∀ p ∈ l, load m' p = load m p) : Links m' a l := by
  induction l generalizing a with
  | nil => exact h
  | cons p l ih =>
    refine ⟨h.1, h.2.1, ?_⟩
    rw [hm p (by simp)]
    exact ih h.2.2 fun q hq => hm q (by simp [hq])

lemma within_page (hp : p.toNat % 4096 = 0) : Within p 4096 y ↔ p.toNat ≤ y.toNat ∧ y.toNat < p.toNat + 4096 := by
  have := p.isLt
  exact within_iff (by omega)

lemma page_apart (hp : p.toNat % 4096 = 0) (hv : v.toNat % 4096 = 0) (h : Within p 4096 y) (h' : Within v 4096 y) : p = v := by
  rw [within_page hp] at h
  rw [within_page hv] at h'
  exact BitVec.eq_of_toNat_eq (by omega)

lemma Page.ne_zero (h : Page kend p) : p ≠ 0#32 := by
  intro h0
  have := h.kernel
  rw [h0] at this
  simp at this

/-- The state of the allocator: a list of different pages through memory. -/
structure Kept (kend : Word) (k : Kmem) (l : List Word) : Prop where
  links : Links k.mem k.freelist l
  nodup : l.Nodup
  page : ∀ p ∈ l, Page kend p

lemma kfree_eq (hv : Page kend v) :
    kfree kend v k = some { k with mem := store (junk k.mem v) v k.freelist, freelist := v } := by
  have h1 := hv.aligned
  have h2 := hv.above
  have h3 := hv.below
  have h4 := hv.kernel
  refine if_neg ?_
  simp only [BitVec.lt_def, Memory.PHYSTOP, KERNBASE, BitVec.toNat_sub, BitVec.toNat_ofNat]
  omega

/-- A page that is not on the list is put in front of it. -/
lemma Kept.kfree (h : Kept kend k l) (hv : Page kend v) (hl : v ∉ l) :
    ∃ k', kfree kend v k = some k' ∧ Kept kend k' (v :: l) ∧ k'.use_lock = k.use_lock := by
  refine ⟨_, kfree_eq hv, ⟨⟨rfl, hv.ne_zero, ?_⟩, List.nodup_cons.2 ⟨hl, h.nodup⟩, ?_⟩, rfl⟩
  · rw [load_store_same]
    refine h.links.congr fun p hp => ?_
    -- the bytes of `v` are no bytes of the pages on the list
    have hne : ∀ y, Within p 4 y → ¬ Within v 4096 y := fun y hy hy' =>
      hl (page_apart (h.page p hp).aligned hv.aligned (lt_of_lt_of_le hy (by decide)) hy' ▸ hp)
    refine load_congr fun y hy => ?_
    have hstore : store (junk k.mem v) v k.freelist y = junk k.mem v y :=
      store_frame y fun hy' => hne y hy (lt_of_lt_of_le hy' (by decide))
    exact hstore.trans (if_neg (hne y hy))
  · intro p hp
    rcases List.mem_cons.1 hp with rfl | hp
    · exact hv
    · exact h.page p hp

/-- The first page of the list is taken off; with no page on it the list stays. -/
lemma Kept.kalloc (h : Kept kend k l) :
    ((kalloc k).1 = l.headD 0#32) ∧ Kept kend (kalloc k).2 l.tail ∧ (kalloc k).2.mem = k.mem ∧
      (kalloc k).2.use_lock = k.use_lock := by
  obtain ⟨h1, h2, h3⟩ := h
  cases l with
  | nil =>
    have h0 : k.freelist = 0#32 := h1
    rw [Kalloc.kalloc, if_pos h0]
    exact ⟨rfl, ⟨h1, h2, h3⟩, rfl, rfl⟩
  | cons p l =>
    obtain ⟨hp, h0, hl⟩ := h1
    rw [Kalloc.kalloc, if_neg (hp ▸ h0)]
    refine ⟨hp, ⟨?_, (List.nodup_cons.1 h2).2, fun q hq => h3 q (by simp [show q ∈ l from hq])⟩, rfl, rfl⟩
    rw [hp]
    exact hl

lemma Kept.relock (h : Kept kend k l) (b : Bool) : Kept kend { k with use_lock := b } l := ⟨h.links, h.nodup, h.page⟩

lemma Kept.write (h : Kept kend k l) (hm : ∀ p ∈ l, ∀ y, Within p 4096 y → m y = k.mem y) :
    Kept kend { k with mem := m } l :=
  ⟨h.links.congr fun p hp => load_congr fun y hy => hm p hp y (lt_of_lt_of_le hy (by decide)), h.nodup, h.page⟩

/-! ### The initialization -/

/-- The address of page `i`. -/
def pg (i : ℕ) : Word := BitVec.ofNat 32 (4096 * i)

lemma pg_toNat (hi : i < 1048576) : (pg i).toNat = 4096 * i := by
  rw [pg, BitVec.toNat_ofNat]
  omega

lemma page_pg (hi : kend.toNat ≤ 4096 * i) (h : 0x80000 ≤ i) (h' : i < 0x8E000) : Page kend (pg i) := by
  have ht := pg_toNat (i := i) (by omega)
  exact ⟨by omega, by omega, by omega, by omega⟩

def pages (i j : ℕ) : List Word := (List.range' i (j - i)).map pg

lemma mem_pages (hj : j ≤ 1048576) : p ∈ pages i j ↔ p.toNat % 4096 = 0 ∧ 4096 * i ≤ p.toNat ∧ p.toNat < 4096 * j := by
  simp only [pages, List.mem_map, List.mem_range'_1]
  constructor
  · rintro ⟨x, hx, rfl⟩
    rw [pg_toNat (by omega)]
    omega
  · rintro ⟨h1, h2, h3⟩
    refine ⟨p.toNat / 4096, by omega, ?_⟩
    apply BitVec.eq_of_toNat_eq
    rw [pg_toNat (by omega)]
    omega

/-- The loop puts the pages from `i` up to `j` on the list, one by one. -/
lemma Kept.freerange (hj : j < 0x8E001) (hv : v.toNat = 4096 * j) (hkend : kend.toNat ≤ 4096 * i) (hi : 0x80000 ≤ i)
    (hij : i ≤ j) (hn : j - i < n) (h : Kept kend k l) (hl : ∀ x, i ≤ x → x < j → pg x ∉ l) :
    ∃ k', freerangeLoop kend v n (pg i) k = some k' ∧ Kept kend k' ((pages i j).reverse ++ l) ∧ k'.use_lock = k.use_lock := by
  induction n generalizing i k l with
  | zero => omega
  | succ n ih =>
    have hpg := pg_toNat (i := i) (by omega)
    have hnext : pg i + 4096#32 = pg (i + 1) := by
      apply BitVec.eq_of_toNat_eq
      rw [BitVec.toNat_add, hpg, pg_toNat (by omega), BitVec.toNat_ofNat]
      omega
    by_cases hlt : i < j
    · obtain ⟨k₁, hk₁, hkept, hu⟩ := h.kfree (page_pg hkend hi (by omega)) (hl i le_rfl hlt)
      obtain ⟨k₂, hk₂, hkept₂, hu₂⟩ := ih (i := i + 1) (by omega) (by omega) (by omega) (by omega) hkept fun x h1 h2 hx => by
        rcases List.mem_cons.1 hx with he | hx
        · have := congrArg BitVec.toNat he
          rw [hpg, pg_toNat (by omega)] at this
          omega
        · exact hl x (by omega) h2 hx
      have hcond : pg i + 4096#32 ≤ v := by
        rw [hnext, BitVec.le_def, pg_toNat (by omega), hv]
        omega
      refine ⟨k₂, ?_, ?_, hu₂.trans hu⟩
      · rw [freerangeLoop, if_pos hcond, hk₁, hnext]
        exact hk₂
      · have hsplit : pages i j = pg i :: pages (i + 1) j := by
          rw [pages, show j - i = (j - (i + 1)) + 1 by omega, List.range'_succ]
          rfl
        rw [hsplit, List.reverse_cons, List.append_assoc]
        exact hkept₂
    · obtain rfl : i = j := by omega
      have hcond : ¬ pg i + 4096#32 ≤ v := by
        rw [hnext, BitVec.le_def, pg_toNat (by omega), hv]
        omega
      refine ⟨k, ?_, ?_, rfl⟩
      · rw [freerangeLoop, if_neg hcond]
      · simpa [pages] using h

/-- `PGROUNDUP` gives the address of the first page that starts at or after its argument. -/
lemma roundup_eq (hv : v.toNat ≤ 0x8E000000) : PGROUNDUP v = pg ((v.toNat + 4095) / 4096) := by
  have hmask : ∀ x : Word, x &&& ~~~ 4095#32 = (x >>> 12) <<< 12 := by
    intro x
    apply BitVec.eq_of_getLsbD_eq
    intro b hb
    have h4095 : (4095#32).getLsbD b = decide (b < 12) := by
      rw [BitVec.getLsbD_ofNat, show 4095 = 2 ^ 12 - 1 from rfl, Nat.testBit_two_pow_sub_one]
      simp [hb]
    rw [BitVec.getLsbD_and, BitVec.getLsbD_not, BitVec.getLsbD_shiftLeft, BitVec.getLsbD_ushiftRight, h4095]
    by_cases h12 : b < 12
    · simp [h12]
    · simp [h12, hb, show 12 + (b - 12) = b by omega]
  have hsum : (v.toNat + 4095) % 2 ^ 32 = v.toNat + 4095 := Nat.mod_eq_of_lt (by omega)
  have hle : (v.toNat + 4095) / 4096 * 4096 ≤ v.toNat + 4095 := Nat.div_mul_le_self _ _
  apply BitVec.eq_of_toNat_eq
  rw [PGROUNDUP, hmask, BitVec.toNat_shiftLeft, BitVec.toNat_ushiftRight, BitVec.toNat_add, show (4095#32).toNat = 4095 from rfl, hsum,
    Nat.shiftRight_eq_div_pow, Nat.shiftLeft_eq, pg_toNat (by omega), Nat.mod_eq_of_lt (by omega), Nat.mul_comm]

/-! ### Runs -/

/-- The allocator with memory, and the pages that its callers hold. -/
structure Pool where
  kmem : Kmem
  held : List Word

inductive Label where
  /-- The second phase of the initialization. -/
  | kinit2
  | alloc
  /-- A caller gives back a page it holds. -/
  | free (v : Word)
  /-- A caller writes a byte. -/
  | write (y : Word) (b : BitVec 8)
  deriving DecidableEq

/-- The numbers of the first page after the kernel and of the page after the last one given so far. -/
def first (kend : Word) : ℕ := (kend.toNat + 4095) / 4096
def last (use_lock : Bool) : ℕ := if use_lock then 0x8E000 else 0x80400

/-- The pages that the allocator was given so far. -/
def Pool.given (kend : Word) (s : Pool) : List Word := pages (first kend) (last s.kmem.use_lock)

/-- Callers write to pages they hold and to memory that the allocator was not given. -/
def Pool.MayWrite (kend : Word) (s : Pool) (y : Word) : Prop :=
  (∃ p ∈ s.held, Within p 4096 y) ∨ y.toNat < 4096 * first kend ∨ 4096 * last s.kmem.use_lock ≤ y.toNat

instance (s : Pool) (y : Word) : Decidable (s.MayWrite kend y) := inferInstanceAs (Decidable (_ ∨ _))

def step (kend : Word) : Label → Pool → Option Pool
  | .kinit2, s => if s.kmem.use_lock then none else (kinit2 kend low high s.kmem).map fun k => { s with kmem := k }
  | .alloc, s =>
    let r := kalloc s.kmem
    some ⟨r.2, if r.1 = 0#32 then s.held else r.1 :: s.held⟩
  | .free v, s => if v ∈ s.held then (kfree kend v s.kmem).map fun k => ⟨k, s.held.erase v⟩ else none
  | .write y b, s =>
    if s.MayWrite kend y then some { s with kmem := { s.kmem with mem := Function.update s.kmem.mem y b } } else none

/-- After the first phase, with an empty list before it. -/
def Start (kend : Word) (s : Pool) : Prop :=
  s.held = [] ∧ ∃ m u, kinit1 kend kend low ⟨m, u, 0#32⟩ = some s.kmem

/-- The kernel ends within the memory that the first page table maps. -/
def Loaded (kend : Word) : Prop := 0x80000000 ≤ kend.toNat ∧ kend.toNat ≤ 0x80400000

instance : Decidable (Loaded kend) := inferInstanceAs (Decidable (_ ∧ _))

/-- The list and the pages that are held are together the pages given, each once. -/
def Inv (kend : Word) (s : Pool) : Prop :=
  ∃ l, Kept kend s.kmem l ∧ (l ++ s.held).Perm (s.given kend)

variable {s s' : Pool}

lemma pages_nodup (hj : j ≤ 1048576) : (pages i j).Nodup := by
  refine List.Nodup.map_on (fun x hx z hz h => ?_) List.nodup_range'
  simp only [List.mem_range'_1] at hx hz
  have := congrArg BitVec.toNat h
  rw [pg_toNat (by omega), pg_toNat (by omega)] at this
  omega

lemma pages_append {x : ℕ} (hi : i ≤ x) (hx : x ≤ j) : pages i x ++ pages x j = pages i j := by
  have h := List.range'_append_1 (s := i) (m := x - i) (n := j - x)
  rw [show i + (x - i) = x by omega, show x - i + (j - x) = j - i by omega] at h
  rw [pages, pages, pages, ← List.map_append, h]

lemma last_le (b : Bool) : last b ≤ 0x8E000 ∧ 0x80400 ≤ last b := by
  cases b <;> decide

lemma given_page (hk : Loaded kend) (h : p ∈ s.given kend) : Page kend p := by
  obtain ⟨h1, h2⟩ := hk
  have hl := last_le s.kmem.use_lock
  obtain ⟨ha, hb, hc⟩ := (mem_pages (by omega)).1 h
  unfold first at hb
  exact ⟨ha, by omega, by omega, by omega⟩

lemma first_le (hk : Loaded kend) : 0x80000 ≤ first kend ∧ first kend ≤ 0x80400 := by
  unfold Loaded at hk
  unfold first
  omega

lemma inv_start (hk : Loaded kend) (h : Start kend s) : Inv kend s := by
  obtain ⟨hheld, m, u, hinit⟩ := h
  have hf := first_le hk
  have hempty : Kept kend ⟨m, false, 0#32⟩ [] := ⟨rfl, List.nodup_nil, by simp⟩
  obtain ⟨k', hrun, hkept, hu⟩ := hempty.freerange (v := low) (i := first kend) (j := 0x80400) (n := 1048577) (by omega)
    (by decide) (by unfold first; omega) hf.1 hf.2 (by omega) (by simp)
  have hk' : k' = s.kmem := by
    rw [kinit1, freerange, roundup_eq (by unfold Loaded at hk; omega)] at hinit
    exact Option.some.inj (hrun.symm.trans hinit)
  subst hk'
  refine ⟨_, hkept, ?_⟩
  rw [hheld, List.append_nil, List.append_nil, Pool.given, hu]
  exact List.reverse_perm _

/-- The second phase adds the rest of memory. -/
lemma Inv.kinit2 (hk : Loaded kend) (h : Inv kend s) (hs : step kend .kinit2 s = some s') : Inv kend s' := by
  obtain ⟨l, hkept, hperm⟩ := h
  have hf := first_le hk
  simp only [step] at hs
  split_ifs at hs with hu
  have hu' : s.kmem.use_lock = false := by simpa using hu
  have hgiven : s.given kend = pages (first kend) 0x80400 := by
    rw [Pool.given, hu']
    rfl
  have hnew : ∀ x, 0x80400 ≤ x → x < 0x8E000 → pg x ∉ l := by
    intro x h1 h2 hx
    have hmem : pg x ∈ s.given kend := hperm.subset (List.mem_append_left _ hx)
    rw [hgiven, mem_pages (by omega), pg_toNat (by omega)] at hmem
    omega
  obtain ⟨k', hrun, hkept', -⟩ := hkept.freerange (v := high) (i := 0x80400) (j := 0x8E000) (n := 1048577) (by omega)
    (by decide) (by unfold Loaded at hk; omega) (by omega) (by omega) (by omega) hnew
  have hround : PGROUNDUP low = pg 0x80400 := by decide
  rw [Kalloc.kinit2, Kalloc.freerange, hround, hrun] at hs
  rw [Option.map_some, Option.map_some, Option.some_inj] at hs
  subst hs
  refine ⟨_, hkept'.relock true, ?_⟩
  have hsplit : pages (first kend) 0x8E000 = pages (first kend) 0x80400 ++ pages 0x80400 0x8E000 :=
    (pages_append hf.2 (by omega)).symm
  have hlast : last true = 0x8E000 := if_pos rfl
  rw [Pool.given, hlast, hsplit, List.append_assoc, ← hgiven]
  exact ((List.reverse_perm _).append hperm).trans List.perm_append_comm

lemma Inv.alloc (h : Inv kend s) (hs : step kend .alloc s = some s') : Inv kend s' := by
  obtain ⟨l, hkept, hperm⟩ := h
  obtain ⟨hp, hkept', -, hu⟩ := hkept.kalloc
  obtain rfl := Option.some.inj hs
  refine ⟨l.tail, hkept', ?_⟩
  rw [Pool.given, hu]
  cases l with
  | nil =>
    rw [if_pos (show (Kalloc.kalloc s.kmem).1 = 0#32 from hp)]
    exact hperm
  | cons p l =>
    have h0 : (Kalloc.kalloc s.kmem).1 ≠ 0#32 := hp ▸ (hkept.page p (by simp)).ne_zero
    rw [if_neg h0, hp]
    exact List.perm_middle.trans hperm

lemma Inv.free (hk : Loaded kend) (h : Inv kend s) (hs : step kend (.free v) s = some s') : Inv kend s' := by
  obtain ⟨l, hkept, hperm⟩ := h
  simp only [step] at hs
  split_ifs at hs with hv
  have hnodup : (l ++ s.held).Nodup := hperm.nodup_iff.2 (pages_nodup (by have := last_le s.kmem.use_lock; omega))
  have hl : v ∉ l := fun hl => (List.disjoint_of_nodup_append hnodup) hl hv
  obtain ⟨k', hfree, hkept', hu⟩ := hkept.kfree (given_page hk (hperm.subset (List.mem_append_right _ hv))) hl
  rw [hfree] at hs
  obtain rfl := Option.some.inj hs
  refine ⟨v :: l, hkept', ?_⟩
  change List.Perm ((v :: l) ++ s.held.erase v) (pages (first kend) (last k'.use_lock))
  rw [hu]
  refine List.Perm.trans ?_ hperm
  exact List.perm_middle.symm.trans ((List.perm_cons_erase hv).symm.append_left l)

lemma Inv.write {b : BitVec 8} (hk : Loaded kend) (h : Inv kend s) (hs : step kend (.write y b) s = some s') : Inv kend s' := by
  obtain ⟨l, hkept, hperm⟩ := h
  simp only [step] at hs
  split_ifs at hs with hw
  obtain rfl := Option.some.inj hs
  have hlast := last_le s.kmem.use_lock
  have hnodup : (l ++ s.held).Nodup := hperm.nodup_iff.2 (pages_nodup (by omega))
  refine ⟨l, hkept.write fun p hp z hz => ?_, hperm⟩
  refine Function.update_of_ne (fun he => ?_) _ _
  subst he
  -- the byte lies in a page that is free, so nobody may write to it
  have hmem : p ∈ s.given kend := hperm.subset (List.mem_append_left _ hp)
  have hpage := given_page hk hmem
  rcases hw with ⟨q, hq, hzq⟩ | hout
  · have hqpage := given_page hk (hperm.subset (List.mem_append_right l hq))
    rw [page_apart hpage.aligned hqpage.aligned hz hzq] at hp
    exact (List.disjoint_of_nodup_append hnodup) hp hq
  · have hin := (mem_pages (by omega)).1 hmem
    have hbyte := (within_page hpage.aligned).1 hz
    omega

lemma inv_step (hk : Loaded kend) (lb : Label) (h : Inv kend s) (hs : step kend lb s = some s') : Inv kend s' := by
  cases lb with
  | kinit2 => exact h.kinit2 hk hs
  | alloc => exact h.alloc hs
  | free v => exact h.free hk hs
  | write y b => exact h.write hk hs

/-- In every run every page from the end of the kernel on is in exactly one place: held by one caller or on the
free list. So `kalloc` fails only when all pages are held, never gives a page that somebody holds, and `kfree`
accepts every page that was given out. -/
theorem kalloc_exact (hk : Loaded kend) (r : Lts.Run (Start kend) (step kend) n) :
    ∀ k, k ≤ n → (r.state k).held.Nodup ∧
      (∀ p ∈ (r.state k).held, p ∈ (r.state k).given kend ∧ ∃ k', kfree kend p (r.state k).kmem = some k') ∧
      ((kalloc (r.state k).kmem).1 = 0#32 → ∀ p ∈ (r.state k).given kend, p ∈ (r.state k).held) ∧
      ((kalloc (r.state k).kmem).1 ≠ 0#32 → (kalloc (r.state k).kmem).1 ∈ (r.state k).given kend ∧
        (kalloc (r.state k).kmem).1 ∉ (r.state k).held) := by
  intro k hkn
  obtain ⟨l, hkept, hperm⟩ := r.invariant (P := Inv kend) (fun s => inv_start hk) (fun s lb s' h hs => inv_step hk lb h hs) k hkn
  have hlast := last_le (r.state k).kmem.use_lock
  have hnodup : (l ++ (r.state k).held).Nodup := hperm.nodup_iff.2 (pages_nodup (by omega))
  obtain ⟨hp, -, -, -⟩ := hkept.kalloc
  refine ⟨(List.nodup_append.1 hnodup).2.1, fun p hpm => ?_, fun h0 p hpm => ?_, fun hne => ?_⟩
  · have hg : p ∈ (r.state k).given kend := hperm.subset (List.mem_append_right _ hpm)
    exact ⟨hg, _, kfree_eq (given_page hk hg)⟩
  · cases l with
    | nil => simpa using hperm.symm.subset hpm
    | cons q l => exact absurd (hp.symm.trans h0) (hkept.page q (by simp)).ne_zero
  · cases l with
    | nil => exact absurd hp hne
    | cons q l =>
      rw [hp]
      exact ⟨hperm.subset (by simp), fun hq => (List.disjoint_of_nodup_append hnodup) (by simp) hq⟩

/-- The kernel ends a page before the memory that the first page table maps. -/
def lastPage : Word := 0x803FF000#32

def booted : Pool := ⟨(kinit1 lastPage lastPage low ⟨fun _ => 0#8, true, 0#32⟩).getD ⟨fun _ => 0#8, true, 0#32⟩, []⟩

instance : Inhabited Label := ⟨.alloc⟩

/-- The page is given out, given back and given out again; then there is none. -/
def onePage : List Label := [.alloc, .free lastPage, .alloc, .alloc]

theorem kalloc_exact_onePage : Loaded lastPage ∧ ∃ r : Lts.Run (Start lastPage) (step lastPage) onePage.length,
    (r.state onePage.length).held = [lastPage] ∧ (kalloc (r.state onePage.length).kmem).1 = 0#32 ∧
      ∀ p ∈ (r.state onePage.length).given lastPage, p ∈ (r.state onePage.length).held := by
  have hk : Loaded lastPage := by decide
  have hsome : (kinit1 lastPage lastPage low ⟨fun _ => 0#8, true, 0#32⟩).isSome := by decide +kernel
  have hstart : Start lastPage booted := by
    refine ⟨rfl, fun _ => 0#8, true, ?_⟩
    obtain ⟨k, h⟩ := Option.isSome_iff_exists.1 hsome
    rw [booted, h, Option.getD_some]
  obtain ⟨r, -, hp⟩ := Lts.exists_run_of_check (step lastPage) onePage (fun _ _ _ => true)
    (fun s => decide (s.held = [lastPage] ∧ (kalloc s.kmem).1 = 0#32)) hstart (by decide +kernel)
  obtain ⟨hheld, hnone⟩ := of_decide_eq_true hp
  exact ⟨hk, r, hheld, hnone, (kalloc_exact hk r _ le_rfl).2.2.1 hnone⟩

end Kalloc

end Os132

import Os132.Files.Mkfs

/-!
# What mkfs leaves for the kernel (mkfs.c, fs.h)

An image is consistent if the blocks, inodes and bytes on it are what the kernel expects there. Every call of
`iappend` adds blocks one by one behind those in use, so an image has the right blocks for the sizes of its inodes, and the
right bytes in them. What mkfs does not check is the number of files, the number of blocks, and what the rounding up of the
root directory's size adds.
-/

namespace Os132

namespace Files

open Prog

/-- Where block `fbn` of a file is entered. -/
def place (fbn : ℕ) : Place := if fbn < NDIRECT then .slot fbn else .word (fbn - NDIRECT)

lemma place_inj {a b : ℕ} (h : place a = place b) : a = b := by
  unfold place at h
  split_ifs at h with h1 h2 h2 <;> simp at h <;> omega

lemma place_ne_indirect (fbn : ℕ) : place fbn ≠ .slot NDIRECT := by
  unfold place
  split_ifs with h
  · simp only [ne_eq, Place.slot.injEq]
    omega
  · simp

/-- The number of sectors for a file of this size: its blocks and, if the direct ones are not enough, the indirect block. -/
def sectors (size : ℕ) : ℕ := (size + (511)) / 512 + if NDIRECT * 512 < size then 1 else 0

/-- The blocks of inode `i` are those of the bytes `l`, and contain them, with zeros up to the end of the last block. -/
structure Filled (v : ℕ → Dinode) (data : ℕ → Block) (i : ℕ) (l : List UInt8) : Prop where
  block : ∀ fbn, fbn < MAXFILE → ((hold v data (i, place fbn)).isSome = true ↔ fbn * 512 < l.length)
  indirect : (hold v data (i, .slot NDIRECT)).isSome = true ↔ NDIRECT * 512 < l.length
  byte : ∀ fbn b, fbn < MAXFILE → hold v data (i, place fbn) = some b → ∀ j, j < 512 → data b j = (l[fbn * 512 + j]?).getD 0
  fits : l.length ≤ MAXFILE * 512

/-- No block is lost: those up to `f` are held. -/
def NoneLost (v : ℕ → Dinode) (data : ℕ → Block) (f : ℕ) : Prop :=
  ∀ b, dataStart mkfsSuper ≤ b → b < f → ∃ y, hold v data y = some b

/-- What the entry of block `fbn` of inode `inum` changes. -/
structure Extends (v : ℕ → Dinode) (data : ℕ → Block) (f : ℕ) (v' : ℕ → Dinode) (data' : ℕ → Block) (f' inum fbn x : ℕ) : Prop where
  here : hold v' data' (inum, place fbn) = some x
  mono : ∀ y b, hold v data y = some b → hold v' data' y = some b
  only : ∀ y, hold v data y = none → y ≠ (inum, place fbn) → y ≠ (inum, .slot NDIRECT) → hold v' data' y = none
  indirect : (hold v' data' (inum, .slot NDIRECT)).isSome = true ↔ (hold v data (inum, .slot NDIRECT)).isSome = true ∨ NDIRECT ≤ fbn
  cover : ∀ b, f ≤ b → b < f' → ∃ y, hold v' data' y = some b
  count : f' = f + (if (hold v data (inum, place fbn)).isSome then 0 else 1) +
    if NDIRECT ≤ fbn ∧ hold v data (inum, .slot NDIRECT) = none then 1 else 0
  rest : ∀ b, hold v' data' (inum, .slot NDIRECT) ≠ some b → data' b = data b
  fresh : hold v data (inum, place fbn) = none → f ≤ x

lemma Filled.congr {v v' : ℕ → Dinode} {data : ℕ → Block} {i : ℕ} {l : List UInt8} (h : Filled v data i l)
    (hv : ∀ i k, k ≤ NDIRECT → (v' i).addrs k = (v i).addrs k) : Filled v' data i l := by
  have hh : hold v' data = hold v data := hold_congr hv
  exact ⟨by rw [hh]; exact h.block, by rw [hh]; exact h.indirect, by rw [hh]; exact h.byte, h.fits⟩

namespace Mkfs

variable {m m' : Mkfs} {d d' : Dinode} {inum fbn off k x : ℕ} {p l : List UInt8}

/-- The entry is there already. -/
lemma Extends.same {v : ℕ → Dinode} {data : ℕ → Block} {f : ℕ} (hx : hold v data (inum, place fbn) = some x)
    (hi : NDIRECT ≤ fbn → (hold v data (inum, .slot NDIRECT)).isSome = true) : Extends v data f v data f inum fbn x where
  here := hx
  mono _ _ hy := hy
  only _ hy _ _ := hy
  indirect := ⟨Or.inl, fun h => h.elim id hi⟩
  cover b h1 h2 := by omega
  count := by
    have hno : ¬ (NDIRECT ≤ fbn ∧ hold v data (inum, .slot NDIRECT) = none) := by
      rintro ⟨h1, h2⟩
      have := hi h1
      rw [h2] at this
      cases this
    rw [hx, if_neg hno]
    rfl
  rest _ _ := rfl
  fresh h := by rw [hx] at h; cases h

lemma hold_slot (h : m.Ok (m.having inum d)) (hk : k ≤ NDIRECT) (hz : d.addrs k = 0) :
    hold (m.having inum d) m.data (inum, .slot k) = none ∧
      hold (m.take.having inum (setAddr d k m.freeblock)) m.data (inum, .slot k) = some m.freeblock ∧
      ∀ y, y ≠ (inum, .slot k) → hold (m.take.having inum (setAddr d k m.freeblock)) m.data y = hold (m.having inum d) m.data y :=
  hold_setSlot hk h.laid.pos (by rw [having_self]; exact hz) (fun j i => having_setAddr j) h.laid.not_indirect
    (h.laid.blank _ le_rfl) fun _ _ => rfl

lemma hold_word {a j : ℕ} (h : m.Ok (m.having inum d)) (hj : j < NINDIRECT) (ha : d.addrs NDIRECT = a) (ha0 : a ≠ 0)
    (hz : (m.data a).word j = 0) :
    hold (m.having inum d) m.data (inum, .word j) = none ∧
      hold (m.having inum d) (m.wsect a ((m.data a).setWord j m.freeblock)).data (inum, .word j) = some m.freeblock ∧
      ∀ y, y ≠ (inum, .word j) →
        hold (m.having inum d) (m.wsect a ((m.data a).setWord j m.freeblock)).data y = hold (m.having inum d) m.data y := by
  have hself : (m.having inum d inum).addrs NDIRECT = a := by rw [having_self]; exact ha
  have hslot : ∀ i', (m.having inum d i').addrs NDIRECT = a → hold (m.having inum d) m.data (i', .slot NDIRECT) = some a := by
    intro i' hi'
    simp only [hold, le_refl, if_true]
    exact block_eq.2 ⟨hi', ha0⟩
  exact hold_putWord hj h.laid.pos (lt_of_le_of_lt h.fits (by decide)) hself ha0
    (fun i' hi' => (Prod.mk.inj (h.laid.owns.once _ _ a (hslot i' hi') (hslot inum hself))).1) h.laid.not_indirect hz
    (if_pos rfl) fun c h1 _ => if_neg h1

lemma hold_indirect : hold (m.having inum d) m.data (inum, .slot NDIRECT) = block (d.addrs NDIRECT) := by
  simp only [hold, le_refl, if_true, having_self]

/-- A block entered in the indirect block. -/
lemma extends_word {a : ℕ} (h : m.Ok (m.having inum d)) (h1 : NDIRECT ≤ fbn) (hfbn : fbn < MAXFILE) (ha : d.addrs NDIRECT = a)
    (ha0 : a ≠ 0) (hs : m.appendWord a (fbn - NDIRECT) = some (m', x)) :
    Extends (m.having inum d) m.data m.freeblock (m'.having inum d) m'.data m'.freeblock inum fbn x ∧
      (m'.dinode = m.dinode ∧ m'.freeinode = m.freeinode) := by
  have hj : fbn - NDIRECT < NINDIRECT := by
    unfold MAXFILE at hfbn
    omega
  have hplace : place fbn = .word (fbn - NDIRECT) := if_neg (by omega)
  have hind : hold (m.having inum d) m.data (inum, .slot NDIRECT) = some a := by
    rw [hold_indirect]
    exact block_eq.2 ⟨ha, ha0⟩
  unfold appendWord at hs
  split_ifs at hs with h3 h4
  · cases hs
    obtain ⟨hnone, hnew, hsame⟩ := hold_word h hj ha ha0 h4
    have hkeep := hsame (inum, .slot NDIRECT) (by simp)
    refine ⟨⟨?_, fun y b hy => ?_, fun y hy hne _ => ?_, ?_, fun b hb1 hb2 => ?_, ?_, fun b hb => ?_, fun _ => le_rfl⟩, rfl, rfl⟩
    · rw [hplace]
      exact hnew
    · have hne : y ≠ (inum, .word (fbn - NDIRECT)) := by
        rintro rfl
        rw [hnone] at hy
        cases hy
      exact (hsame y hne).trans hy
    · exact (hsame y (hplace ▸ hne)).trans hy
    · exact ⟨fun _ => Or.inr h1, fun _ => by
        have := hkeep.trans hind
        exact Option.isSome_iff_exists.2 ⟨a, this⟩⟩
    · have hb2 : b < m.freeblock + 1 := hb2
      obtain rfl : b = m.freeblock := by omega
      exact ⟨_, hnew⟩
    · rw [hplace, hnone, hind]
      simp [take, wsect]
    · exact if_neg fun hba => hb ((hkeep.trans hind).trans (congrArg some hba.symm))
  · cases hs
    refine ⟨Extends.same ?_ fun _ => by rw [hind]; rfl, rfl, rfl⟩
    rw [hplace]
    simp only [hold, having_self, ha, if_pos (And.intro ha0 hj)]
    exact block_eq.2 ⟨rfl, h4⟩

/-- A block entered in a direct slot, or behind a new indirect block. -/
lemma extends_appendAddr (h : m.Ok (m.having inum d)) (hfbn : fbn < MAXFILE) (hs : m.appendAddr d fbn = some (m', d', x)) :
    Extends (m.having inum d) m.data m.freeblock (m'.having inum d') m'.data m'.freeblock inum fbn x ∧
      m'.dinode = m.dinode ∧ m'.freeinode = m.freeinode ∧ d'.type = d.type := by
  unfold appendAddr at hs
  split_ifs at hs with h1 h2
  · cases hs
    have hplace : place fbn = .slot fbn := if_pos h1
    obtain ⟨hnone, hnew, hsame⟩ := hold_slot h h1.le h2
    have hne : ((inum, Place.slot NDIRECT) : ℕ × Place) ≠ (inum, .slot fbn) := by
      simp only [ne_eq, Prod.mk.injEq, Place.slot.injEq, true_and]
      omega
    refine ⟨⟨?_, fun y b hy => ?_, fun y hy hn _ => ?_, ?_, fun b hb1 hb2 => ?_, ?_, fun _ _ => rfl, fun _ => le_rfl⟩, rfl, rfl, rfl⟩
    · rw [hplace]
      exact hnew
    · have hne : y ≠ (inum, .slot fbn) := by
        rintro rfl
        rw [hnone] at hy
        cases hy
      exact (hsame y hne).trans hy
    · exact (hsame y (hplace ▸ hn)).trans hy
    · have hind := hsame _ hne
      change (hold (m.take.having inum (setAddr d fbn m.freeblock)) m.data (inum, .slot NDIRECT)).isSome = true ↔ _
      rw [hind]
      exact ⟨Or.inl, fun h => h.elim id fun h => absurd h (by omega)⟩
    · have hb2 : b < m.freeblock + 1 := hb2
      obtain rfl : b = m.freeblock := by omega
      exact ⟨_, hnew⟩
    · rw [hplace, hnone, if_neg (by simp), if_neg (by omega)]
      rfl
  · cases hs
    refine ⟨Extends.same ?_ fun h => absurd h (by omega), rfl, rfl, rfl⟩
    rw [show place fbn = .slot fbn from if_pos h1]
    simp only [hold, if_pos h1.le, having_self]
    exact block_eq.2 ⟨rfl, h2⟩
  · have h1 : NDIRECT ≤ fbn := by omega
    generalize hr : m.appendIndirect d = r at hs
    cases hw : r.1.appendWord (r.2.addrs NDIRECT) (fbn - NDIRECT) with
    | none =>
      simp only [hw] at hs
      cases hs
    | some w =>
      obtain ⟨m₂, x₂⟩ := w
      simp only [hw] at hs
      cases hs
      have hsize : r.2.addrs NDIRECT < mkfsSuper.size := by
        unfold Mkfs.appendWord at hw
        split_ifs at hw <;> omega
      unfold appendIndirect at hr
      split_ifs at hr with h2
      · subst hr
        -- the indirect block first
        have hok := h.slot le_rfl h2 (by simpa [setAddr] using hsize)
        obtain ⟨hnone, hnew, hsame⟩ := hold_slot h le_rfl h2
        obtain ⟨he, hd, hi⟩ := extends_word hok h1 hfbn rfl (by simpa [setAddr] using h.laid.pos) hw
        have hne : ((inum, place fbn) : ℕ × Place) ≠ (inum, .slot NDIRECT) := fun hx => place_ne_indirect fbn (Prod.mk.inj hx).2
        have hfirst : hold (m.having inum d) m.data (inum, place fbn) = none := by
          rw [show place fbn = .word (fbn - NDIRECT) from if_neg (by omega)]
          simp [hold, having_self, h2]
        have hcount := he.count
        refine ⟨⟨he.here, fun y b hy => ?_, fun y hy hn1 hn2 => ?_, ?_, fun b hb1 hb2 => ?_, ?_, fun b hb => ?_, fun _ => ?_⟩,
          hd, hi, rfl⟩
        · have hy' : y ≠ (inum, .slot NDIRECT) := by
            rintro rfl
            rw [hnone] at hy
            cases hy
          exact he.mono y b ((hsame y hy').trans hy)
        · exact he.only y ((hsame y hn2).trans hy) hn1 hn2
        · exact ⟨fun _ => Or.inr h1, fun _ => he.indirect.2 (Or.inr h1)⟩
        · by_cases hb : b = m.freeblock
          · exact ⟨(inum, .slot NDIRECT), hb ▸ he.mono _ _ hnew⟩
          · have hb1' : m.freeblock + 1 ≤ b := by omega
            exact he.cover b hb1' hb2
        · rw [hfirst, hnone, if_neg (by simp), if_pos ⟨h1, rfl⟩]
          have h3 : hold (m.take.having inum (setAddr d NDIRECT m.freeblock)) m.take.data (inum, place fbn) = none :=
            (hsame _ hne).trans hfirst
          have h4 : hold (m.take.having inum (setAddr d NDIRECT m.freeblock)) m.take.data (inum, .slot NDIRECT) = some m.freeblock :=
            hnew
          rw [h3, h4, if_neg (by simp), if_neg (by simp)] at hcount
          simpa [take] using hcount
        · exact he.rest b hb
        · have h3 : hold (m.take.having inum (setAddr d NDIRECT m.freeblock)) m.take.data (inum, place fbn) = none :=
            (hsame _ hne).trans hfirst
          have : m.freeblock + 1 ≤ x := he.fresh h3
          omega
      · subst hr
        obtain ⟨he, hd, hi⟩ := extends_word h h1 hfbn rfl h2 hw
        exact ⟨he, hd, hi, rfl⟩

/-- Bytes written to a block of a file are in no entry. -/
lemma hold_write {v : ℕ → Dinode} {data : ℕ → Block} {f b : ℕ} (h : Laid v data f) {y : ℕ × Place} (hy : hold v data y = some b)
    (hne : ∀ i, y ≠ (i, .slot NDIRECT)) (blk : Block) : hold v (fun c => if c = b then blk else data c) = hold v data := by
  have hb0 : b ≠ 0 := by
    rintro rfl
    exact absurd (h.owns.inside y 0 hy) (by decide)
  have hno : ∀ i, (v i).addrs NDIRECT ≠ b := by
    intro i hi
    refine hne i (h.owns.once _ _ b hy ?_)
    simp only [hold, le_refl, if_true]
    exact block_eq.2 ⟨hi, hb0⟩
  funext z
  obtain ⟨i, k | j⟩ := z
  · rfl
  · simp only [hold, if_neg (hno i)]

/-- What holds between the passes of `iappend` to inode `inum`, whose bytes so far are `l`. -/
structure Good (m : Mkfs) (v : ℕ → Dinode) (inum : ℕ) (l : List UInt8) : Prop where
  ok : m.Ok v
  kept : NoneLost v m.data m.freeblock
  filled : Filled v m.data inum l

/-- The bytes in the block that a pass writes to, before it. -/
lemma Good.before {v' : ℕ → Dinode} (h : m.Good (m.having inum d) inum l)
    (he : Extends (m.having inum d) m.data m.freeblock v' m'.data m'.freeblock inum (l.length / 512) x)
    (hok : Laid v' m'.data m'.freeblock) (hb : l.length / 512 < MAXFILE) {j : ℕ} (hj : j < 512) :
    m'.data x j = (l[l.length / 512 * 512 + j]?).getD 0 := by
  have hdata : m'.data x = m.data x := he.rest x fun hi =>
    place_ne_indirect _ (Prod.mk.inj (hok.owns.once _ _ x he.here hi)).2
  rw [hdata]
  cases hx : hold (m.having inum d) m.data (inum, place (l.length / 512)) with
  | some b =>
    have hbx : b = x := by
      have := he.mono _ _ hx
      rw [he.here] at this
      exact (Option.some.inj this).symm
    exact h.filled.byte _ _ hb (hbx ▸ hx) j hj
  | none =>
    have hnot : ¬ l.length / 512 * 512 < l.length := fun hlt => by
      have := (h.filled.block _ hb).2 hlt
      rw [hx] at this
      cases this
    rw [h.ok.laid.blank x (he.fresh hx), List.getElem?_eq_none (by omega)]
    rfl

lemma byte_lt {j n : ℕ} (h : fbn * 512 < n) (hne : fbn ≠ n / 512) (hj : j < 512) : fbn * 512 + j < n := by
  have h1 : fbn ≤ n / 512 := (Nat.le_div_iff_mul_le (by decide)).2 h.le
  have h2 : fbn + 1 ≤ n / 512 := lt_of_le_of_ne h1 hne
  calc fbn * 512 + j < fbn * 512 + 512 := Nat.add_lt_add_left hj _
    _ = (fbn + 1) * 512 := (Nat.succ_mul fbn 512).symm
    _ ≤ n := (Nat.le_div_iff_mul_le (by decide)).1 h2

/-- One pass of the loop in `iappend`. -/
lemma Good.pass {d₁ : Dinode} {m₁ : Mkfs} {n : ℕ} (h : m.Good (m.having inum d) inum l) (hb : l.length / 512 < MAXFILE)
    (ha : m.appendAddr d (l.length / 512) = some (m₁, d₁, x)) (hx : x < mkfsSuper.size) (h0 : 0 < n)
    (hn : n ≤ (l.length / 512 + 1) * 512 - l.length) (hp : n ≤ p.length)
    (hm' : m' = m₁.wsect x ((m₁.data x).copy (l.length - l.length / 512 * 512) (p.take n))) :
    m'.Good (m'.having inum d₁) inum (l ++ p.take n) ∧
      (∀ i l', i ≠ inum → Filled (m.having inum d) m.data i l' → Filled (m'.having inum d₁) m'.data i l') ∧
      m'.freeblock + sectors l.length = m.freeblock + sectors (l.length + n) ∧
      m'.dinode = m.dinode ∧ m'.freeinode = m.freeinode ∧ d₁.type = d.type := by
  obtain ⟨he, hdin, hfree, htype⟩ := extends_appendAddr h.ok hb ha
  obtain ⟨hok, -, -⟩ := h.ok.appendAddr hb ha hx
  have hplace : ∀ i, ((inum, place (l.length / 512)) : ℕ × Place) ≠ (i, .slot NDIRECT) := fun i hi =>
    place_ne_indirect _ (Prod.mk.inj hi).2
  have hhold : hold (m'.having inum d₁) m'.data = hold (m₁.having inum d₁) m₁.data := by
    rw [hm']
    exact hold_write hok.laid he.here hplace _
  have hok' : m'.Ok (m'.having inum d₁) := by
    rw [hm']
    exact hok.wsect ⟨_, hplace, he.here⟩ _
  have hdata : ∀ b, b ≠ x → m'.data b = m₁.data b := fun b hbx => by
    rw [hm']
    exact if_neg hbx
  have hfb : m'.freeblock = m₁.freeblock := by rw [hm']; rfl
  have hcount := he.count
  have hindold := h.filled.indirect
  have hblockold := h.filled.block
  have hsame : ∀ fbn, fbn ≠ l.length / 512 →
      hold (m₁.having inum d₁) m₁.data (inum, place fbn) = hold (m.having inum d) m.data (inum, place fbn) := by
    intro fbn hf
    cases hy : hold (m.having inum d) m.data (inum, place fbn) with
    | some b => exact he.mono _ b hy
    | none => exact he.only _ hy (fun hp => hf (place_inj (Prod.mk.inj hp).2)) fun hp => place_ne_indirect _ (Prod.mk.inj hp).2
  refine ⟨⟨hok', ?_, ?_, ?_, ?_, ?_⟩, ?_, ?_, ?_, ?_, htype⟩
  · -- no block is lost
    intro b hb1 hb2
    rw [hhold]
    by_cases hbf : b < m.freeblock
    · obtain ⟨y, hy⟩ := h.kept b hb1 hbf
      exact ⟨y, he.mono y b hy⟩
    · exact he.cover b (by omega) (by omega)
  · -- the blocks of the file
    intro fbn hfbn
    rw [hhold, List.length_append, List.length_take]
    by_cases hf : fbn = l.length / 512
    · rw [hf, he.here]
      refine ⟨fun _ => ?_, fun _ => rfl⟩
      omega
    · rw [hsame fbn hf, hblockold fbn hfbn]
      omega
  · rw [hhold, he.indirect, hindold, List.length_append, List.length_take]
    unfold NDIRECT
    omega
  · -- the bytes
    intro fbn b hfbn hbl j hj
    rw [hhold] at hbl
    by_cases hf : fbn = l.length / 512
    · subst hf
      have hbx : b = x := by
        rw [he.here] at hbl
        exact (Option.some.inj hbl).symm
      have hbefore := h.before he hok.laid hb hj
      have hafter : m'.data x j = (m₁.data x).copy (l.length - l.length / 512 * 512) (p.take n) j := by
        rw [hm']
        exact congrFun (if_pos rfl) j
      rw [hbx, hafter, Block.copy]
      by_cases hr : l.length - l.length / 512 * 512 ≤ j
      · have hidx : l.length / 512 * 512 + j - l.length = j - (l.length - l.length / 512 * 512) := by omega
        rw [if_pos hr, List.getElem?_append_right (by omega), hidx, hbefore, List.getElem?_eq_none (l := l) (by omega)]
        rfl
      · rw [if_neg hr, List.getElem?_append_left (by omega), hbefore]
    · rw [hsame fbn hf] at hbl
      have hlt : fbn * 512 < l.length := (hblockold fbn hfbn).1 (by rw [hbl]; rfl)
      have hmono := he.mono _ b hbl
      have hbx : b ≠ x := fun hbx => hf (place_inj (Prod.mk.inj (hok.laid.owns.once _ _ x (hbx ▸ hmono) he.here)).2)
      have hbi : hold (m₁.having inum d₁) m₁.data (inum, .slot NDIRECT) ≠ some b := fun hi =>
        place_ne_indirect _ (Prod.mk.inj (hok.laid.owns.once _ _ b hmono hi)).2
      rw [hdata b hbx, he.rest b hbi, h.filled.byte fbn b hfbn hbl j hj, List.getElem?_append_left (byte_lt hlt hf hj)]
  · rw [List.length_append, List.length_take]
    omega
  · -- the other files
    intro i l' hi hl'
    have hrest : ∀ pl, hold (m₁.having inum d₁) m₁.data (i, pl) = hold (m.having inum d) m.data (i, pl) := by
      intro pl
      cases hy : hold (m.having inum d) m.data (i, pl) with
      | some b => exact he.mono _ b hy
      | none => exact he.only _ hy (fun hp => hi (Prod.mk.inj hp).1) fun hp => hi (Prod.mk.inj hp).1
    refine ⟨fun fbn hfbn => ?_, ?_, fun fbn b hfbn hbl j hj => ?_, hl'.fits⟩
    · rw [hhold, hrest]
      exact hl'.block fbn hfbn
    · rw [hhold, hrest]
      exact hl'.indirect
    · rw [hhold] at hbl
      have hold0 : hold (m.having inum d) m.data (i, place fbn) = some b := (hrest _).symm.trans hbl
      have hbx : b ≠ x := fun hbx => hi (Prod.mk.inj (hok.laid.owns.once _ _ x (hbx ▸ hbl) he.here)).1
      have hbi : hold (m₁.having inum d₁) m₁.data (inum, .slot NDIRECT) ≠ some b := fun hx =>
        hi (Prod.mk.inj (hok.laid.owns.once _ _ b hbl hx)).1
      rw [hdata b hbx, he.rest b hbi]
      exact hl'.byte fbn b hfbn hold0 j hj
  · -- the sectors
    have hq := hblockold _ hb
    have hnone : hold (m.having inum d) m.data (inum, .slot NDIRECT) = none ↔ ¬ NDIRECT * 512 < l.length := by
      rw [← hindold, Option.not_isSome_iff_eq_none]
    rw [hfb, hcount]
    simp only [hq, hnone]
    unfold sectors NDIRECT
    split_ifs <;> omega
  · rw [hm']
    exact hdin
  · rw [hm']
    exact hfree

/-- What `iappend` of the bytes `p` to inode `inum`, whose bytes were `l`, leaves. -/
structure Appended (m : Mkfs) (v : ℕ → Dinode) (m' : Mkfs) (v' : ℕ → Dinode) (inum : ℕ) (l p : List UInt8) : Prop extends
    m'.Good v' inum (l ++ p) where
  others : ∀ i l', i ≠ inum → Filled v m.data i l' → Filled v' m'.data i l'
  count : m'.freeblock + sectors l.length = m.freeblock + sectors (l.length + p.length)
  freeinode : m'.freeinode = m.freeinode

lemma Good.appendLoop (fuel : ℕ) (h : m.Good (m.having inum d) inum l) (hp : p.length ≤ fuel)
    (hs : appendLoop fuel m d l.length p = some (m', d', k)) :
    Appended m (m.having inum d) m' (m'.having inum d') inum l p ∧ k = l.length + p.length ∧ m'.dinode = m.dinode ∧ d'.type = d.type := by
  induction fuel generalizing m d l p with
  | zero =>
    cases hs
    obtain rfl : p = [] := List.length_eq_zero_iff.1 (by omega)
    exact ⟨⟨by simpa using h, fun _ _ _ h => h, rfl, rfl⟩, rfl, rfl, rfl⟩
  | succ fuel ih =>
    unfold Mkfs.appendLoop at hs
    split_ifs at hs with h1 h2
    · cases hs
      obtain rfl : p = [] := List.length_eq_zero_iff.1 h1
      exact ⟨⟨by simpa using h, fun _ _ _ h => h, rfl, rfl⟩, rfl, rfl, rfl⟩
    · cases ha : m.appendAddr d (l.length / 512) with
      | none =>
        simp only [ha] at hs
        cases hs
      | some w =>
        obtain ⟨m₁, d₁, x⟩ := w
        simp only [ha] at hs
        split_ifs at hs with h3
        generalize hn : min p.length ((l.length / 512 + 1) * 512 - l.length) = n at hs
        have hn0 : 0 < n := by omega
        have hnp : n ≤ p.length := by omega
        have hlen : (p.take n).length = n := List.length_take_of_le hnp
        obtain ⟨hg, hothers, hcount, hdin, hfree, htype⟩ := h.pass (by omega) ha (by omega) hn0 (by omega) hnp rfl
        have hnext : (l ++ p.take n).length = l.length + n := by rw [List.length_append, hlen]
        rw [← hnext] at hs
        obtain ⟨⟨hg', hothers', hcount', hfree'⟩, hk, hdin', htype'⟩ := ih hg (by rw [List.length_drop]; omega) hs
        rw [List.append_assoc, List.take_append_drop] at hg'
        rw [hnext, List.length_drop] at hcount' hk
        have hsum : l.length + n + (p.length - n) = l.length + p.length := by omega
        rw [hsum] at hcount' hk
        refine ⟨⟨hg', fun i l' hi hl' => hothers' i l' hi (hothers i l' hi hl'), by omega, hfree'.trans hfree⟩, hk,
          hdin'.trans hdin, htype'.trans htype⟩

lemma Good.iappend (h : m.Good m.dinode inum l) (hsize : (m.dinode inum).size = l.length) (hs : m.iappend inum p = some m') :
    Appended m m.dinode m' m'.dinode inum l p ∧ (m'.dinode inum).size = (l ++ p).length ∧
      (m'.dinode inum).type = (m.dinode inum).type ∧ ∀ i, i ≠ inum → m'.dinode i = m.dinode i := by
  have hself : m.having inum (m.dinode inum) = m.dinode := by
    funext x
    unfold having winode
    simp only
    split_ifs with hx
    · rw [hx]
    · rfl
  unfold Mkfs.iappend at hs
  split at hs
  · cases hs
  · rename_i m₁ d₁ off₁ hloop
    cases hs
    rw [hsize] at hloop
    obtain ⟨hap, hk, hdin, htype⟩ := Good.appendLoop p.length (hself.symm ▸ h) le_rfl hloop
    rw [hself] at hap
    have hv : ∀ i k, k ≤ NDIRECT →
        ((m₁.winode inum { d₁ with size := off₁ }).dinode i).addrs k = (m₁.having inum d₁ i).addrs k := by
      intro i k _
      unfold having winode
      simp only
      split_ifs <;> rfl
    refine ⟨⟨⟨⟨hap.ok.laid.of_addrs fun i k hk => Or.inl (hv i k hk), hap.ok.used, hap.ok.fits⟩, fun b hb1 hb2 => ?_,
      hap.filled.congr hv⟩, fun i l' hi hl' => (hap.others i l' hi hl').congr hv, hap.count, hap.freeinode⟩, ?_, ?_, fun i hi => ?_⟩
    · rw [hold_congr hv]
      exact hap.kept b hb1 hb2
    · rw [List.length_append, ← hk]
      exact congrArg Dinode.size (if_pos rfl)
    · exact (congrArg Dinode.type (if_pos rfl)).trans htype
    · exact (if_neg hi).trans (congrFun hdin i)

/-- Inode `i` is a file of this type with these bytes. -/
structure Has (m : Mkfs) (i : ℕ) (type : Int16) (l : List UInt8) : Prop where
  filled : Filled m.dinode m.data i l
  size : (m.dinode i).size = l.length
  type : (m.dinode i).type = type

/-- The blocks of all inodes are right. -/
structure Neat (m : Mkfs) : Prop where
  ok : m.Ok m.dinode
  kept : NoneLost m.dinode m.data m.freeblock

/-- Appending leaves other inodes alone. -/
structure Grew (m m' : Mkfs) (inum : ℕ) (old new : ℕ) : Prop where
  neat : m'.Neat
  others : ∀ i t l, i ≠ inum → m.Has i t l → m'.Has i t l
  dinode : ∀ i, i ≠ inum → m'.dinode i = m.dinode i
  count : m'.freeblock + sectors old = m.freeblock + sectors new
  freeinode : m'.freeinode = m.freeinode

variable {t : Int16}

lemma Has.iappend (hm : m.Neat) (h : m.Has inum t l) (hs : m.iappend inum p = some m') :
    m'.Has inum t (l ++ p) ∧ Grew m m' inum l.length (l ++ p).length := by
  obtain ⟨hap, hsize, htype, hrest⟩ := Good.iappend ⟨hm.ok, hm.kept, h.filled⟩ h.size hs
  refine ⟨⟨hap.filled, hsize, htype.trans h.type⟩, ⟨hap.ok, hap.kept⟩, fun i t l' hi hl' => ?_, hrest, ?_, hap.freeinode⟩
  · exact ⟨hap.others i l' hi hl'.filled, by rw [hrest i hi, hl'.size], by rw [hrest i hi, hl'.type]⟩
  · rw [List.length_append]
    exact hap.count

lemma Has.reads (reads : List (List UInt8)) (hm : m.Neat) (h : m.Has inum t l)
    (hs : reads.foldlM (fun m p => m.iappend inum p) m = some m') :
    m'.Has inum t (l ++ reads.flatten) ∧ Grew m m' inum l.length (l ++ reads.flatten).length := by
  induction reads generalizing m l with
  | nil =>
    cases hs
    simp only [List.flatten_nil, List.append_nil]
    exact ⟨h, hm, fun _ _ _ _ h => h, fun _ _ => rfl, rfl, rfl⟩
  | cons p reads ih =>
    rw [List.foldlM_cons] at hs
    obtain ⟨m₁, h1, h2⟩ := Option.bind_eq_some_iff.1 hs
    obtain ⟨h₁, g₁⟩ := h.iappend hm h1
    obtain ⟨h₂, g₂⟩ := ih g₁.neat h₁ h2
    rw [List.append_assoc] at h₂ g₂
    rw [List.flatten_cons]
    have hcount := g₁.count
    have hcount' := g₂.count
    exact ⟨h₂, g₂.neat, fun i t l hi hl => g₂.others i t l hi (g₁.others i t l hi hl),
      fun i hi => (g₂.dinode i hi).trans (g₁.dinode i hi), by omega, g₂.freeinode.trans g₁.freeinode⟩

lemma hold_zero {v : ℕ → Dinode} {data : ℕ → Block} {i : ℕ} (h : (v i).addrs = fun _ => 0) (pl : Place) :
    hold v data (i, pl) = none := by
  cases pl <;> simp [hold, h, Files.block]

lemma filled_nil {v : ℕ → Dinode} {data : ℕ → Block} {i : ℕ} (h : (v i).addrs = fun _ => 0) : Filled v data i [] := by
  refine ⟨fun fbn _ => ?_, ?_, fun fbn b _ hb => ?_, by simp⟩
  · simp [hold_zero h]
  · simp [hold_zero h]
  · rw [hold_zero h] at hb
    cases hb

/-- A new inode. -/
lemma Neat.ialloc (hm : m.Neat) (hz : m.dinode m.freeinode = Dinode.zero) (t : Int16) :
    (m.ialloc t).Neat ∧ (m.ialloc t).Has m.freeinode t [] ∧ ∀ i t' l, i ≠ m.freeinode → m.Has i t' l → (m.ialloc t).Has i t' l := by
  have hself : (m.ialloc t).dinode m.freeinode = { Dinode.zero with type := t, nlink := 1 } := if_pos rfl
  have hne : ∀ i, i ≠ m.freeinode → (m.ialloc t).dinode i = m.dinode i := fun i hi => if_neg hi
  have hv : ∀ i k, k ≤ NDIRECT → ((m.ialloc t).dinode i).addrs k = (m.dinode i).addrs k := by
    intro i k _
    by_cases hi : i = m.freeinode
    · rw [hi, hself, hz]
    · rw [hne i hi]
  refine ⟨⟨hm.ok.ialloc, fun b hb1 hb2 => ?_⟩, ⟨filled_nil ?_, ?_, ?_⟩, fun i t' l hi hl => ⟨hl.filled.congr hv, ?_, ?_⟩⟩
  · obtain ⟨y, hy⟩ := hm.kept b hb1 hb2
    exact ⟨y, by rw [← hy]; exact congrFun (hold_congr hv) y⟩
  · rw [hself]
    rfl
  · rw [hself]
    rfl
  · rw [hself]
  · rw [hne i hi, hl.size]
  · rw [hne i hi, hl.type]

end Mkfs

/-- The bytes of a file on the command line. -/
def HostFile.bytes (f : HostFile) : List UInt8 := f.reads.flatten

/-- The sectors for all files. -/
def totalSectors : List HostFile → ℕ
  | [] => 0
  | f :: files => sectors f.bytes.length + totalSectors files

lemma totalSectors_snoc (files : List HostFile) (f : HostFile) :
    totalSectors (files ++ [f]) = totalSectors files + sectors f.bytes.length := by
  induction files with
  | nil => simp [totalSectors]
  | cons g files ih =>
    rw [List.cons_append, totalSectors, ih, totalSectors]
    omega

/-- Its name in the root directory. -/
def HostFile.shown (f : HostFile) : Name := if f.name.head? = some 95 then f.name.tail else f.name

/-- The entries of the root directory. -/
def rootBytes (files : List HostFile) : List UInt8 :=
  Dirent.toBytes ROOTINO dot ++ Dirent.toBytes ROOTINO dotdot ++ (files.mapIdx fun k f => Dirent.toBytes (k + 2) f.shown).flatten

lemma rootBytes_snoc (files : List HostFile) (f : HostFile) :
    rootBytes (files ++ [f]) = rootBytes files ++ Dirent.toBytes (files.length + 2) f.shown := by
  simp [rootBytes, List.mapIdx_append]

lemma length_rootBytes (files : List HostFile) : (rootBytes files).length = DIRENT * (files.length + 2) := by
  induction files using List.reverseRecOn with
  | nil => simp [rootBytes]; rfl
  | append_singleton files f ih =>
    rw [rootBytes_snoc, List.length_append, ih, Mkfs.length_toBytes, List.length_append, List.length_singleton]
    unfold DIRENT
    omega

namespace Mkfs

variable {m m' : Mkfs}

/-- The image after these files. -/
structure Built (files : List HostFile) (m : Mkfs) : Prop where
  neat : m.Neat
  next : m.freeinode = files.length + 2
  unused : ∀ i, i = 0 ∨ m.freeinode ≤ i → m.dinode i = Dinode.zero
  root : m.Has ROOTINO T_DIR (rootBytes files)
  file : ∀ k f, files[k]? = some f → m.Has (k + 2) T_FILE f.bytes
  count : m.freeblock = dataStart mkfsSuper + sectors (rootBytes files).length + totalSectors files

lemma Built.addFile {files : List HostFile} {f : HostFile} (h : Built files m) (hs : m.addFile f = some m') :
    Built (files ++ [f]) m' := by
  unfold Mkfs.addFile at hs
  by_cases hslash : slash ∈ f.name
  · rw [if_pos hslash] at hs
    cases hs
  rw [if_neg hslash] at hs
  simp only at hs
  split at hs
  · cases hs
  rename_i m₁ h1
  have hnext := h.next
  have hroot : ROOTINO = 1 := rfl
  have hself : (m.ialloc T_FILE).freeinode = m.freeinode + 1 := rfl
  have hdin : ∀ i, i ≠ m.freeinode → (m.ialloc T_FILE).dinode i = m.dinode i := fun i hi => if_neg hi
  obtain ⟨hneat, hnew, hkeep⟩ := h.neat.ialloc (h.unused _ (Or.inr le_rfl)) T_FILE
  obtain ⟨hr, g₁⟩ := (hkeep ROOTINO _ _ (by omega) h.root).iappend hneat h1
  obtain ⟨hf, g₂⟩ := Has.reads f.reads g₁.neat (g₁.others _ _ _ (by omega) hnew) hs
  rw [List.nil_append] at hf g₂
  have hc₁ := g₁.count
  have hc₂ := g₂.count
  have hf₁ := g₁.freeinode
  have hf₂ := g₂.freeinode
  refine ⟨g₂.neat, ?_, fun i hi => ?_, ?_, fun k f' hk => ?_, ?_⟩
  · rw [List.length_append, List.length_singleton]
    omega
  · have hi1 : i ≠ m.freeinode := by omega
    have hi2 : i ≠ ROOTINO := by omega
    rw [g₂.dinode i hi1, g₁.dinode i hi2, hdin i hi1]
    exact h.unused i (by omega)
  · rw [rootBytes_snoc, ← hnext]
    exact g₂.others _ _ _ (by omega) hr
  · rw [List.getElem?_append] at hk
    split_ifs at hk with hlt
    · have hold0 := hkeep (k + 2) _ _ (by omega) (h.file k f' hk)
      exact g₂.others _ _ _ (by omega) (g₁.others _ _ _ (by omega) hold0)
    · have hk0 : k - files.length = 0 := by
        by_contra hne
        rw [List.getElem?_eq_none (by rw [List.length_singleton]; omega)] at hk
        cases hk
      rw [hk0] at hk
      cases hk
      have : k + 2 = m.freeinode := by omega
      rw [this]
      exact hf
  · rw [rootBytes_snoc, totalSectors_snoc]
    have hcount := h.count
    have hfb : (m.ialloc T_FILE).freeblock = m.freeblock := rfl
    have h0 : sectors ([] : List UInt8).length = 0 := rfl
    rw [← hnext]
    unfold HostFile.bytes
    unfold HostFile.shown
    omega

lemma Built.foldlM (rest : List HostFile) {files : List HostFile} (h : Built files m) (hs : rest.foldlM Mkfs.addFile m = some m') :
    Built (files ++ rest) m' := by
  induction rest generalizing m files with
  | nil =>
    cases hs
    rwa [List.append_nil]
  | cons f rest ih =>
    rw [List.foldlM_cons] at hs
    obtain ⟨m₁, h1, h2⟩ := Option.bind_eq_some_iff.1 hs
    have := ih (h.addFile h1) h2
    rwa [List.append_assoc, List.singleton_append] at this

/-- A block that mkfs uses: one of its own, or one that an inode holds. -/
def InUse (m : Mkfs) (b : ℕ) : Prop := b < dataStart mkfsSuper ∨ ∃ y, hold m.dinode m.data y = some b

/-- `i2b` -/
def i2b (inum : ℕ) : ℕ := inum / IPB + 2

/-- The sector to which `balloc` writes the bitmap. -/
def bitmapSector : ℕ := mkfsSuper.ninodes / IPB + 3

/-- Byte `off` of inode `i`, as the kernel finds it. -/
def byte (m : Mkfs) (i off : ℕ) : Option UInt8 := (hold m.dinode m.data (i, place (off / 512))).map fun b => m.data b (off % 512)

end Mkfs

/-- The image suits the kernel. `balloc` sets the bits below `usedblocks`. -/
structure Mountable (files : List HostFile) (m : Mkfs) : Prop where
  sectors : ∀ b, m.InUse b → b < mkfsSuper.size - mkfsSuper.nlog
  inodes : ∀ i, (m.dinode i).type ≠ 0 → i < mkfsSuper.ninodes
  bitmap : ¬ m.InUse m.usedblocks ∧ ∀ b, b < m.usedblocks → m.InUse b
  blocks : ∀ i, (m.dinode i).type ≠ 0 → ∀ fbn, fbn * 512 < (m.dinode i).size →
    ∃ b, hold m.dinode m.data (i, place fbn) = some b ∧ b < m.usedblocks
  once : ∀ x y b, hold m.dinode m.data x = some b → hold m.dinode m.data y = some b → x = y
  bytes : ∀ k f, files[k]? = some f → (m.dinode (k + 2)).size = f.bytes.length ∧
    ∀ off (h : off < f.bytes.length), m.byte (k + 2) off = some f.bytes[off]
  entries : ∀ off, off < (m.dinode ROOTINO).size → m.byte ROOTINO off = some ((rootBytes files)[off]?.getD 0)
  iblock : ∀ i, Mkfs.i2b i = IBLOCK i
  bblock : ∀ b, b < mkfsSuper.size → Mkfs.bitmapSector = BBLOCK b mkfsSuper.ninodes

/-- What mkfs does not check: there are inodes and blocks for all files, and the entries of the root directory do not fill
its last block. -/
def Suits (files : List HostFile) : Prop :=
  files.length + 1 < mkfsSuper.ninodes ∧
    sectors (DIRENT * (files.length + 2)) + totalSectors files ≤ mkfsSuper.nblocks ∧
    ¬ BSIZE / DIRENT ∣ files.length + 2

namespace Mkfs

lemma built_mkfs {files : List HostFile} (h : mkfs files = some m) : ∃ m₀, Built files m₀ ∧ m = finish m₀ := by
  unfold mkfs at h
  obtain ⟨m₁, h1, h⟩ := Option.bind_eq_some_iff.1 h
  obtain ⟨m₂, h2, h⟩ := Option.bind_eq_some_iff.1 h
  obtain ⟨m₃, h3, h⟩ := Option.bind_eq_some_iff.1 h
  have hfirst : start.freeblock = dataStart mkfsSuper := by decide
  have hstart : start.Neat := ⟨ok_start, fun b hb1 hb2 => by omega⟩
  obtain ⟨hneat, hnew, -⟩ := hstart.ialloc rfl T_DIR
  rw [show start.freeinode = ROOTINO from rfl] at hnew
  obtain ⟨hr₁, g₁⟩ := hnew.iappend hneat h1
  obtain ⟨hr₂, g₂⟩ := hr₁.iappend g₁.neat h2
  rw [List.nil_append] at hr₂ g₂ g₁
  have hc₁ := g₁.count
  have hc₂ := g₂.count
  have hf₁ := g₁.freeinode
  have hf₂ := g₂.freeinode
  have hbase : Built [] m₂ := by
    refine ⟨g₂.neat, hf₂.trans hf₁, fun i hi => ?_, ?_, fun k f hk => ?_, ?_⟩
    · have hfree : (start.ialloc T_DIR).freeinode = 2 := rfl
      have hi1 : i ≠ ROOTINO := by
        have : ROOTINO = 1 := rfl
        omega
      rw [g₂.dinode i hi1, g₁.dinode i hi1]
      exact if_neg hi1
    · simpa [rootBytes] using hr₂
    · cases hk
    · have h0 : sectors ([] : List UInt8).length = 0 := rfl
      have hfb : (start.ialloc T_DIR).freeblock = dataStart mkfsSuper := by decide
      simp only [rootBytes, List.mapIdx_nil, List.flatten_nil, List.append_nil, totalSectors]
      omega
  have hbuilt := hbase.foldlM files h3
  rw [List.nil_append] at hbuilt
  simp only at h
  split_ifs at h
  cases h
  exact ⟨m₃, hbuilt, rfl⟩

variable {files : List HostFile}

lemma finish_addrs (i k : ℕ) : ((finish m).dinode i).addrs k = (m.dinode i).addrs k := by
  unfold finish winode
  simp only
  split_ifs with hi
  · rw [hi]
  · rfl

lemma finish_hold : hold (finish m).dinode (finish m).data = hold m.dinode m.data :=
  hold_congr fun i k _ => finish_addrs i k

lemma finish_type (i : ℕ) : ((finish m).dinode i).type = (m.dinode i).type := by
  unfold finish winode
  simp only
  split_ifs with hi
  · rw [hi]
  · rfl

/-- The inodes in use are the root directory and those of the files. -/
lemma Built.cases (h : Built files m) {i : ℕ} (hi : (m.dinode i).type ≠ 0) :
    i = ROOTINO ∨ ∃ k f, files[k]? = some f ∧ i = k + 2 := by
  by_contra hn
  push Not at hn
  have hroot : ROOTINO = 1 := rfl
  have hz := h.unused i (by
    by_contra hx
    push Not at hx
    have hnext := h.next
    have hk : i - 2 < files.length := by omega
    exact hn.2 (i - 2) _ (List.getElem?_eq_getElem hk) (by omega))
  rw [hz] at hi
  exact hi rfl

lemma Has.byte {i off : ℕ} {t : Int16} {l : List UInt8} (h : m.Has i t l) (hoff : off / 512 * 512 < l.length) :
    Mkfs.byte m i off = some ((l[off]?).getD 0) := by
  have hfits := h.filled.fits
  have hfbn : off / 512 < MAXFILE := by
    by_contra hx
    have : MAXFILE * 512 ≤ off / 512 * 512 := Nat.mul_le_mul_right 512 (by omega)
    omega
  obtain ⟨b, hb⟩ := Option.isSome_iff_exists.1 ((h.filled.block _ hfbn).2 hoff)
  unfold Mkfs.byte
  rw [hb, Option.map_some, h.filled.byte _ b hfbn hb _ (Nat.mod_lt _ (by decide)), Nat.div_add_mod']

lemma Built.inUse_iff (h : Built files m) (b : ℕ) : (finish m).InUse b ↔ b < (finish m).usedblocks := by
  have hused : (finish m).usedblocks = m.freeblock := h.neat.ok.used
  rw [hused, InUse, finish_hold]
  constructor
  · rintro (hb | ⟨y, hy⟩)
    · exact lt_of_lt_of_le hb h.neat.ok.laid.start
    · exact h.neat.ok.laid.owns.marked y b hy
  · intro hb
    by_cases hd : b < dataStart mkfsSuper
    · exact Or.inl hd
    · exact Or.inr (h.neat.kept b (by omega) hb)

end Mkfs

/-- The image that mkfs makes suits the kernel exactly if there are inodes and blocks for all files and the root
directory does not end at the end of a block. -/
theorem mountable_iff {files : List HostFile} {m : Mkfs} (h : Mkfs.mkfs files = some m) : Mountable files m ↔ Suits files := by
  obtain ⟨m₀, hb, rfl⟩ := Mkfs.built_mkfs h
  have hused : (Mkfs.finish m₀).usedblocks = m₀.freeblock := hb.neat.ok.used
  have hcount := hb.count
  have hlen : (rootBytes files).length = 16 * (files.length + 2) := length_rootBytes files
  have hbyte : ∀ i off, (Mkfs.finish m₀).byte i off = m₀.byte i off := fun i off => by
    unfold Mkfs.byte
    rw [Mkfs.finish_hold]
    rfl
  have hstart : dataStart mkfsSuper = 29 := by decide
  have hroot : ROOTINO = 1 := rfl
  have hblocks : mkfsSuper.nblocks = 985 := rfl
  have hlog : mkfsSuper.size - mkfsSuper.nlog = 1014 := by decide
  have hninodes : mkfsSuper.ninodes = 200 := rfl
  have hB : BSIZE / DIRENT = 32 := by decide
  have hsize : ((Mkfs.finish m₀).dinode ROOTINO).size = ((rootBytes files).length / 512 + 1) * 512 := by
    rw [← hb.root.size]
    exact congrArg Dinode.size (if_pos rfl)
  have hfile : ∀ k, (Mkfs.finish m₀).dinode (k + 2) = m₀.dinode (k + 2) := fun k => by
    have hk : ¬ k + 2 = ROOTINO := by omega
    unfold Mkfs.finish Mkfs.winode
    simp only [if_neg hk]
  unfold Suits
  rw [← length_rootBytes, hB]
  constructor
  · intro hm
    have hinodes : files.length + 1 < 200 := by
      by_contra hx
      have hk : files.length - 1 < files.length := by omega
      have hf := hb.file _ _ (List.getElem?_eq_getElem hk)
      have htype : ((Mkfs.finish m₀).dinode (files.length - 1 + 2)).type ≠ 0 := by
        rw [hfile, hf.type]
        decide
      have := hm.inodes _ htype
      omega
    refine ⟨hinodes, ?_, fun hdvd => ?_⟩
    · by_contra hx
      have hin : (Mkfs.finish m₀).InUse 1014 := by
        rw [hb.inUse_iff, hused]
        omega
      have := hm.sectors _ hin
      omega
    · -- the last block of the root directory is missing
      have hmul : (rootBytes files).length / 512 * 512 = (rootBytes files).length := by omega
      have htype : ((Mkfs.finish m₀).dinode ROOTINO).type ≠ 0 := by
        rw [Mkfs.finish_type, hb.root.type]
        decide
      obtain ⟨b, hhold, -⟩ := hm.blocks ROOTINO htype ((rootBytes files).length / 512) (by rw [hsize]; omega)
      rw [Mkfs.finish_hold] at hhold
      have hM : MAXFILE = 140 := rfl
      have := (hb.root.filled.block ((rootBytes files).length / 512) (by omega)).1 (by rw [hhold]; rfl)
      omega
  · rintro ⟨hinodes, hsectors, hdvd⟩
    have hM : MAXFILE = 140 := rfl
    refine ⟨fun b hbu => ?_, fun i hi => ?_, ⟨?_, fun b hbu => (hb.inUse_iff b).2 hbu⟩, fun i hi fbn hfbn => ?_, fun x y b hx hy => ?_,
      fun k f hk => ⟨?_, fun off hoff => ?_⟩, fun off hoff => ?_, fun i => rfl, fun b hbs => ?_⟩
    · rw [hb.inUse_iff, hused] at hbu
      omega
    · rw [Mkfs.finish_type] at hi
      rcases hb.cases hi with rfl | ⟨k, f, hk, rfl⟩
      · decide
      · have := (List.getElem?_eq_some_iff.1 hk).1
        omega
    · rw [hb.inUse_iff]
      omega
    · rw [Mkfs.finish_type] at hi
      rw [Mkfs.finish_hold, hused]
      have hheld : fbn < MAXFILE ∧ (hold m₀.dinode m₀.data (i, place fbn)).isSome = true := by
        rcases hb.cases hi with rfl | ⟨k, f, hk, rfl⟩
        · rw [hsize] at hfbn
          have hlt : fbn < MAXFILE := by omega
          exact ⟨hlt, (hb.root.filled.block fbn hlt).2 (by omega)⟩
        · have hf := hb.file k f hk
          have hfits := hf.filled.fits
          rw [hfile, hf.size] at hfbn
          have hlt : fbn < MAXFILE := by omega
          exact ⟨hlt, (hf.filled.block fbn hlt).2 hfbn⟩
      obtain ⟨b, hhold⟩ := Option.isSome_iff_exists.1 hheld.2
      exact ⟨b, hhold, hb.neat.ok.laid.owns.marked _ b hhold⟩
    · rw [Mkfs.finish_hold] at hx hy
      exact hb.neat.ok.laid.owns.once x y b hx hy
    · rw [hfile, (hb.file k f hk).size]
    · have hle : off / 512 * 512 ≤ off := Nat.div_mul_le_self off 512
      rw [hbyte, (hb.file k f hk).byte (lt_of_le_of_lt hle hoff), List.getElem?_eq_getElem hoff]
      rfl
    · rw [hsize] at hoff
      rw [hbyte]
      exact hb.root.byte (by omega)
    · have hb0 : b / BPB = 0 := Nat.div_eq_of_lt (lt_of_lt_of_le hbs (by decide))
      unfold Mkfs.bitmapSector BBLOCK
      omega

/-- One file of one block. -/
theorem mountable_iff_oneFile : Mountable ([(97, 1)].map fun f => Mkfs.zeroFile f.1 f.2) (Mkfs.filled [(97, 1)]) :=
  (mountable_iff (Mkfs.mkfs_filled (by decide +kernel) (by decide +kernel))).2 (by
    unfold Suits
    decide +kernel)

/-- Thirty empty files: with `.` and `..` their entries are one block, and the size of the root directory is two. -/
def thirty : List (UInt8 × ℕ) := (List.range 30).map fun i => (UInt8.ofNat (97 + i), 0)

theorem root_lacks_block : ¬ ∀ files m, Mkfs.mkfs files = some m → Mountable files m := by
  intro h
  have hmkfs := Mkfs.mkfs_filled (l := thirty) (by decide +kernel) (by decide +kernel)
  have hs := (mountable_iff hmkfs).1 (h _ _ hmkfs)
  exact hs.2.2 (by decide)

end Files

end Os132

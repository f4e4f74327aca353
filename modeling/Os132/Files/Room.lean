import Os132.Files.Contents
import Os132.Files.Served

/-!
# Room for a write

A call of `writei` takes blocks from the bitmap and sectors from the log. Both are budgeted together: a
block of the file that it writes costs at most one free block and one place in the log, once the sectors
of the bitmap, of the inode and of the indirect block are provided for.
-/

namespace Os132

namespace Files

open Prog

variable {stop : Stop → Prop} {s s' : State} {ip k b m x : ℕ} {F : List ℕ}

/-- The free blocks of the data area. -/
def freeBlocks (s : State) : ℕ := (List.range s.sb.size).countP fun b => DataArea s.sb b ∧ s.bit b = false

/-- The sectors of the bitmap. -/
def bitmapSectors (sb : Super) : List ℕ := (List.range (sb.size / BPB + 1)).map fun k => k + sb.ninodes / IPB + 3

/-- A transaction has begun, and it may log the sectors of `F` and `m` others; `m` blocks are free. -/
structure Budget (F : List ℕ) (m : ℕ) (s : State) : Prop where
  busy : s.busy = true
  log : s.logged.length + (F.filter (· ∉ s.logged)).length + m < min LOGSIZE (s.sb.nlog - 1)
  blocks : m ≤ freeBlocks s

namespace Budget

lemma mono {n : ℕ} (h : Budget F m s) (hn : n ≤ m) : Budget F n s :=
  ⟨h.busy, lt_of_le_of_lt (by omega) h.log, hn.trans h.blocks⟩

lemma add (h : Budget F (m + 1) s) : Budget (x :: F) m s := by
  refine ⟨h.busy, ?_, by have := h.blocks; omega⟩
  have := h.log
  rw [List.filter_cons]
  split_ifs
  · rw [List.length_cons]
    omega
  · omega

lemma add_logged (h : Budget F m s) (hx : x ∈ s.logged) : Budget (x :: F) m s := by
  refine ⟨h.busy, ?_, h.blocks⟩
  rw [List.filter_cons_of_neg (by simpa using hx)]
  exact h.log

lemma drop (h : Budget (x :: F) m s) : Budget F m s := by
  refine ⟨h.busy, lt_of_le_of_lt ?_ h.log, h.blocks⟩
  have := ((List.sublist_cons_self x F).filter (· ∉ s.logged)).length_le
  omega

/-- What `log_write` does to the list of sectors. -/
lemma logWrite (h : Budget F m s) (hx : x ∈ F) (hn : x ∉ s.logged) : Budget F m { s with logged := s.logged ++ [x] } := by
  refine ⟨h.busy, lt_of_le_of_lt ?_ h.log, h.blocks⟩
  have hsub : (F.filter (· ∉ s.logged ++ [x])).length < (F.filter (· ∉ s.logged)).length := by
    have heq : F.filter (· ∉ s.logged ++ [x]) = (F.filter (· ∉ s.logged)).filter (· ≠ x) := by
      rw [List.filter_filter]
      apply List.filter_congr
      intro y _
      simp [not_or, and_comm]
    rw [heq]
    refine List.length_filter_lt_length_iff_exists.2 ⟨x, List.mem_filter.2 ⟨hx, by simpa using hn⟩, by simp⟩
  show (s.logged ++ [x]).length + (F.filter (· ∉ s.logged ++ [x])).length + m ≤ _
  rw [List.length_append, List.length_singleton]
  omega

lemma setInode {v : Inode} (h : Budget F m s) : Budget F m (s.setInode ip v) := ⟨h.busy, h.log, h.blocks⟩

end Budget

lemma sure_logWrite {post : Unit → State → Prop} (h : Budget F m s) (hx : x ∈ F)
    (hp : ∀ lg, x ∈ lg → Budget F m { s with logged := lg } → post () { s with logged := lg }) :
    Sure stop (logWrite x) s post := by
  have hlog := h.log
  by_cases hn : x ∈ s.logged
  · refine sure_act (a := ()) (t := s) ?_ (hp s.logged hn h)
    rw [if_neg (by omega), if_neg (by simp [h.busy]), if_pos hn]
  · refine sure_act (a := ()) (t := { s with logged := s.logged ++ [x] }) ?_ (hp _ (by simp) (h.logWrite hx hn))
    rw [if_neg (by omega), if_neg (by simp [h.busy]), if_neg hn]

/-! ### balloc -/

lemma freeBlocks_allocated (hb : DataArea s.sb b) (hbit : s.bit b = false) :
    freeBlocks (Blocks.allocated s b) + 1 = freeBlocks s := by
  have hlt : b < s.sb.size := by
    have := hb.2
    unfold dataEnd at this
    omega
  have := List.countP_change (List.nodup_range (n := s.sb.size)) (List.mem_range.2 hlt)
    (P := fun c => decide (DataArea s.sb c ∧ (Blocks.allocated s b).bit c = false))
    (Q := fun c => decide (DataArea s.sb c ∧ s.bit c = false)) fun c _ hc => by
      have : (Blocks.allocated s b).bit c = s.bit c := if_neg hc
      rw [this]
  have hself : (Blocks.allocated s b).bit b = true := if_pos rfl
  simp only [hself, hbit, hb, Bool.true_eq_false, and_false, decide_false, Bool.false_eq_true, if_false, and_self,
    decide_true, if_true] at this
  exact this

lemma Budget.room (h : Budget F (m + 1) s) : Room s := by
  have : 0 < freeBlocks s := by
    have := h.blocks
    omega
  obtain ⟨b, -, hb⟩ := List.countP_pos_iff.1 this
  exact ⟨b, by simpa using hb⟩

/-- The buffers that are held are of blocks that are not free. -/
def Apart (s : State) : Prop := ∀ x ∈ s.held, dataStart s.sb ≤ x ∧ s.bit x = true

lemma Apart.of_held (h : s.held = []) : Apart s := fun x hx => by
  rw [h] at hx
  cases hx

lemma dataStart_gt : 1 < dataStart s.sb := by
  unfold dataStart
  generalize s.sb.ninodes / IPB = a
  generalize s.sb.size / BPB = c
  omega

lemma bblock_lt (hk : k * BPB < s.sb.size) : BBLOCK (k * BPB) s.sb.ninodes < dataStart s.sb := by
  have h1 : k ≤ s.sb.size / BPB := (Nat.le_div_iff_mul_le (by decide)).2 (by omega)
  rw [BBLOCK, Nat.mul_div_cancel _ (by decide)]
  unfold dataStart
  omega

/-- The scan of `balloc` reaches a free block. -/
lemma sure_ballocFrom {post : ℕ → State → Prop} (hs : Apart s) (h : Budget F (m + 1) s) (hF : ∀ x ∈ bitmapSectors s.sb, x ∈ F)
    (hhead : ∀ c, c < dataStart s.sb → s.bit c = true) (n k : ℕ) (hn : s.sb.size ≤ (k + n) * BPB)
    (hlast : ∀ x, x < n → (k + x) * BPB < s.sb.size) (hk : ∀ c, c < k * BPB → c < s.sb.size → s.bit c = true)
    (hp : ∀ b s', s.bit b = false → DataArea s.sb b → norm s' = norm (Blocks.allocated s b) → s'.held = s.held → b ∈ s'.logged →
      Budget F m s' → post b s') : Sure stop (ballocFrom s.sb (k * BPB) n) s post := by
  have hroom := h.room
  induction n generalizing k with
  | zero =>
    obtain ⟨b, hb, hbit⟩ := hroom
    have hend := hb.2
    rw [Nat.add_zero] at hn
    have := hk b (by unfold dataEnd at hend; omega) (by unfold dataEnd at hend; omega)
    rw [hbit] at this
    cases this
  | succ n ih =>
    have hksize : k * BPB < s.sb.size := hlast 0 (by omega)
    have hfar : BBLOCK (k * BPB) s.sb.ninodes ∉ s.held := fun hx => by
      have := (hs _ hx).1
      have := bblock_lt hksize
      omega
    refine sure_bind (sure_bread_more hfar (sure_bind (sure_look ?_)))
    cases hf : (List.range BPB).find? fun bi => k * BPB + bi < s.sb.size ∧ s.bit (k * BPB + bi) = false with
    | none =>
      refine sure_bind (sure_brelse rfl ?_)
      show Sure stop (ballocFrom s.sb (k * BPB + BPB) n) s post
      rw [← Nat.succ_mul]
      refine ih (k + 1) (by rw [show k + 1 + n = k + (n + 1) by omega]; exact hn)
        (fun x hx => by rw [show k + 1 + x = k + (x + 1) by omega]; exact hlast (x + 1) (by omega)) fun c h1 h2 => ?_
      by_cases hc : c < k * BPB
      · exact hk c hc h2
      · have := List.find?_eq_none.mp hf (c - k * BPB) (List.mem_range.mpr (by rw [Nat.succ_mul] at h1; omega))
        simp only [decide_eq_true_eq, not_and, Bool.not_eq_false] at this
        have := this (by omega)
        rwa [show k * BPB + (c - k * BPB) = c by omega] at this
    | some bi =>
      obtain ⟨h1, hbi, hmin⟩ := List.find?_range_eq_some.mp hf
      simp only [decide_eq_true_eq] at h1
      have hfirst : ∀ c, c < k * BPB + bi → c < s.sb.size → s.bit c = true := by
        intro c h2 h3
        by_cases hc : c < k * BPB
        · exact hk c hc h3
        · have := hmin (c - k * BPB) (by omega)
          simp only [Bool.not_eq_eq_eq_not, Bool.not_true, decide_eq_false_iff_not, not_and, Bool.not_eq_false] at this
          have := this (by omega)
          rwa [show k * BPB + (c - k * BPB) = c by omega] at this
      -- the first free block lies before any other one, and behind the bitmap
      have harea : DataArea s.sb (k * BPB + bi) := by
        obtain ⟨c, hc, hcb⟩ := hroom
        have hend := hc.2
        have hle : k * BPB + bi ≤ c := by
          by_contra hlt
          have := hfirst c (by omega) (by unfold dataEnd at hend; omega)
          rw [hcb] at this
          cases this
        refine ⟨?_, by omega⟩
        by_contra hlt
        have := hhead (k * BPB + bi) (by omega)
        rw [h1.2] at this
        cases this
      have hsector : BBLOCK (k * BPB) s.sb.ninodes ∈ F := by
        refine hF _ (List.mem_map.2 ⟨k, List.mem_range.2 (Nat.lt_succ_of_le ?_), ?_⟩)
        · rw [Nat.le_div_iff_mul_le (by decide)]
          omega
        · rw [BBLOCK, Nat.mul_div_cancel _ (by decide)]
      dsimp only
      generalize k * BPB + bi = b at h1 harea ⊢
      -- the new block takes a place in the log, to be zeroed
      have hb : Budget (b :: F) m (s.setBit b true) := by
        have hlog := h.add (x := b)
        refine ⟨hlog.busy, hlog.log, ?_⟩
        have h2 := freeBlocks_allocated harea h1.2
        have h3 := h.blocks
        show m ≤ freeBlocks (Blocks.allocated s b)
        omega
      have hfree : b ∉ s.held := fun hx => by
        have := (hs b hx).2
        rw [h1.2] at this
        cases this
      refine sure_bind (sure_change (sure_bind ?_))
      refine sure_logWrite (F := b :: F) (m := m) ⟨hb.busy, hb.log, hb.blocks⟩ (List.mem_cons_of_mem _ hsector) fun lg _ hb₁ => ?_
      refine sure_bind (sure_brelse rfl (sure_bind (sure_bind (sure_bread_more hfree (sure_bind (sure_change (sure_bind ?_)))))))
      refine sure_logWrite (F := b :: F) (m := m) ⟨hb₁.busy, hb₁.log, hb₁.blocks⟩ List.mem_cons_self fun lg' hlg hb₂ => ?_
      refine sure_brelse rfl (wp_pure (hp b _ h1.2 harea rfl rfl hlg ?_))
      have hb₃ := hb₂.drop
      exact ⟨hb₃.busy, hb₃.log, hb₃.blocks⟩

lemma sure_balloc {post : ℕ → State → Prop} (hs : Apart s) (h : Budget F (m + 1) s) (hF : ∀ x ∈ bitmapSectors s.sb, x ∈ F)
    (hhead : ∀ c, c < dataStart s.sb → s.bit c = true)
    (hp : ∀ b s', s.bit b = false → DataArea s.sb b → norm s' = norm (Blocks.allocated s b) → s'.held = s.held → b ∈ s'.logged →
      Budget F m s' → post b s') : Sure stop balloc s post := by
  have h1 : 1 ∉ s.held := fun hx => by
    have := (hs 1 hx).1
    have := dataStart_gt (s := s)
    omega
  refine sure_bind (sure_bind (sure_bread_more h1 (sure_bind (sure_look (sure_bind (sure_brelse rfl (wp_pure ?_)))))))
  show Sure stop (ballocFrom s.sb 0 _) s post
  have h2 := Nat.div_add_mod (s.sb.size + (BPB - 1)) BPB
  have h3 := Nat.mod_lt (s.sb.size + (BPB - 1)) (show 0 < BPB by decide)
  have : Sure stop (ballocFrom s.sb (0 * BPB) _) s post := sure_ballocFrom hs h hF hhead ((s.sb.size + (BPB - 1)) / BPB) 0 ?_ (fun x hx => ?_)
    (fun c hc => absurd hc (by omega)) hp
  · rwa [Nat.zero_mul] at this
  · rw [Nat.zero_add, Nat.mul_comm]
    omega
  · have h4 := Nat.mul_le_mul_left BPB hx
    rw [Nat.succ_eq_add_one, Nat.mul_add, Nat.mul_one] at h4
    rw [Nat.zero_add, Nat.mul_comm]
    omega

end Files

end Os132

import Os132.Syscall.Calls

/-!
# User memory stays below `sz`

Pointers that `argptr` accepts for a fixed or nonnegative size, and strings that `argstr` accepts, keep
the kernel below `sz`. A negative count passes `argptr` when the end wraps around to a lower address;
`readi` takes it as an unsigned count. `wait2` writes through the null pointer where `argptr` refuses.
-/

namespace Os132

namespace UserMemory

open Touch

variable {p : Proc} {k : Kernel} {m : Bytes} {ip : Locked} {addr dst src off tot n a path : UInt32}

/-- The call stays below `sz`, whatever it returns. -/
abbrev Stays (p : Proc) (x : Code UInt32) (m : Bytes) : Prop := Within (· < p.sz) x m fun _ _ => True

lemma stays_pure {v : UInt32} : Stays p (pure v) m := within_pure trivial

lemma count_le (h : 0 ≤ int32 n) : count n = n.toNat := by
  have := n.toNat_lt
  by_cases hn : n.toNat < 2 ^ 31
  · rw [count, int32, if_pos hn, Int.toNat_natCast]
  · rw [int32, if_neg hn] at h
    omega

lemma count_neg (h : int32 n < 0) : count n = 0 := Int.toNat_of_nonpos h.le

lemma count_le_toNat : count n ≤ n.toNat := by
  unfold count int32
  split_ifs <;> omega

/-! ### Copies -/

lemma span_zero {b : UInt32} : ¬ Span a 0 b := by
  simp [Span]

lemma span_mono {i j : ℕ} (h : i ≤ j) {b : UInt32} (hb : Span a i b) : Span a j b := by
  unfold Span at *
  omega

lemma within_consolereadLoop {c i : ℕ} (hc : c < 2 ^ 32) :
    Within (Span dst c) (consolereadLoop k c i dst) m fun _ _ => True := by
  induction c generalizing i dst m with
  | zero => exact within_pure trivial
  | succ c ih =>
    unfold consolereadLoop
    cases k.input i with
    | none => exact within_pure trivial
    | some b =>
      dsimp only
      split_ifs
      · exact within_pure trivial
      · exact within_bind (within_store span_head) fun _ m' _ => within_pure trivial
      · refine within_bind (within_store span_head) fun _ m' _ => ?_
        exact (ih (by omega)).mono (fun _ => span_tail (by omega)) fun _ _ h => h

lemma within_consoleread : Within (Span dst (count n)) (consoleread k dst n) m fun _ _ => True := by
  have := n.toNat_lt
  have := count_le_toNat (n := n)
  refine within_bind (within_consolereadLoop (by omega)) fun r m' _ => ?_
  cases r <;> exact within_pure trivial

lemma within_consolewrite : Within (Span src (count n)) (consolewrite src n) m fun r _ => r = n := by
  have := n.toNat_lt
  have := count_le_toNat (n := n)
  exact within_bind (within_loads (by omega)) fun _ _ _ => within_pure rfl

lemma within_piperead : Within (Span addr (count n)) (piperead k addr n) m fun _ _ => True := by
  have := n.toNat_lt
  have := count_le_toNat (n := n)
  unfold piperead
  cases k.piped with
  | none => exact within_pure trivial
  | some l =>
    have hl : (l.take (count n)).length ≤ count n := by simp
    exact within_bind ((within_stores (by omega)).mono (fun _ => span_mono hl) fun _ _ h => h) fun _ _ _ => within_pure trivial

lemma within_pipewriteLoop {c i : ℕ} (hc : c < 2 ^ 32) :
    Within (Span addr c) (pipewriteLoop k c i addr) m fun _ _ => True := by
  induction c generalizing i addr m with
  | zero => exact within_pure trivial
  | succ c ih =>
    unfold pipewriteLoop
    split_ifs
    · refine within_bind (within_load span_head) fun _ m' _ => ?_
      exact (ih (by omega)).mono (fun _ => span_tail (by omega)) fun _ _ h => h
    · exact within_pure trivial

lemma within_pipewrite : Within (Span addr (count n)) (pipewrite k addr n) m fun _ _ => True := by
  have := n.toNat_lt
  have := count_le_toNat (n := n)
  refine within_bind (within_pipewriteLoop (by omega)) fun r m' _ => ?_
  cases r <;> exact within_pure trivial

/-! ### readi and writei -/

/-- How many bytes the loop of `readi` gets to copy. -/
def copies (ip : Locked) (off left : ℕ) : ℕ := min left (ip.blocks * BSIZE - off)

lemma copies_zero {o : ℕ} {b : UInt32} : ¬ Span a (copies ip o 0) b := by
  simp [copies, Span]

lemma copies_step {o l : ℕ} (hb : o / BSIZE < ip.blocks) :
    min l (BSIZE - o % BSIZE) ≤ copies ip o l ∧
      copies ip o l = min l (BSIZE - o % BSIZE) + copies ip (o + min l (BSIZE - o % BSIZE)) (l - min l (BSIZE - o % BSIZE)) := by
  unfold copies BSIZE at *
  have := Nat.div_add_mod o 512
  omega

/-- The loop of `readi` writes exactly the bytes up to the end of the copy or the panic of `bmap`. -/
lemma readiLoop_exact {fuel : ℕ} (ht : tot.toNat ≤ n.toNat) (hf : n.toNat - tot.toNat ≤ fuel)
    (ho : off.toNat + (n.toNat - tot.toNat) < 2 ^ 32) (b : UInt32) :
    b ∈ (readiLoop k ip n fuel tot off dst m).2.touched ↔
      b ∈ m.touched ∨ Span dst (copies ip off.toNat (n.toNat - tot.toNat)) b := by
  induction fuel generalizing tot off dst m with
  | zero =>
    rw [show n.toNat - tot.toNat = 0 by omega, or_iff_left copies_zero]
    rfl
  | succ fuel ih =>
    unfold readiLoop
    split_ifs with hlt hb
    · rw [UInt32.lt_iff_toNat_lt] at hlt
      obtain ⟨hle, hsplit⟩ := copies_step (l := n.toNat - tot.toNat) hb
      set c := min (n.toNat - tot.toNat) (BSIZE - off.toNat % BSIZE) with hc
      have hpos : 0 < c := by
        have := Nat.mod_lt off.toNat (show 0 < BSIZE by decide)
        omega
      have := n.toNat_lt
      have hcc : c.toUInt32.toNat = c := toNat_toUInt32 (by omega)
      have htot : (tot + c.toUInt32).toNat = tot.toNat + c := by
        rw [UInt32.toNat_add, hcc]
        omega
      have hoff : (off + c.toUInt32).toNat = off.toNat + c := by
        rw [UInt32.toNat_add, hcc]
        omega
      obtain ⟨m', hst, hmem⟩ := stores_exact (m := m) (a := dst)
        (l := (List.range c).map fun i => k.data (off + i.toUInt32)) (by simp; omega)
      have hrest : copies ip (off.toNat + c) (n.toNat - tot.toNat - c) ≤ n.toNat - tot.toNat - c := Nat.min_le_left _ _
      rw [bind_ok hst]
      refine (ih (by omega) (by omega) (by omega)).trans ?_
      rw [hmem, hoff, htot, hsplit, Nat.sub_add_eq, span_add (by omega)]
      simp only [List.length_map, List.length_range, or_assoc]
    · have hb : ip.blocks ≤ off.toNat / BSIZE := by omega
      have : ip.blocks * BSIZE ≤ off.toNat := (Nat.le_div_iff_mul_le (by decide)).1 hb
      have h0 : copies ip off.toNat (n.toNat - tot.toNat) = 0 := by
        unfold copies
        omega
      rw [h0, or_iff_left span_zero]
      rfl
    · rw [UInt32.lt_iff_toNat_lt] at hlt
      rw [show n.toNat - tot.toNat = 0 by omega, or_iff_left copies_zero]
      rfl

lemma readiLoop_stop {fuel : ℕ} : ∀ e, (readiLoop k ip n fuel tot off dst m).1 = .error e → e = .panic := by
  induction fuel generalizing tot off dst m with
  | zero =>
    intro e h
    cases h
  | succ fuel ih =>
    unfold readiLoop
    split_ifs with hlt hb
    · obtain ⟨m', hst, -⟩ := stores_exact (m := m) (a := dst) (l := (List.range (min (n.toNat - tot.toNat)
        (BSIZE - off.toNat % BSIZE))).map fun i => k.data (off + i.toUInt32)) (by
          have := n.toNat_lt
          simp
          omega)
      rw [bind_ok hst]
      exact ih
    · rintro e h
      cases h
      rfl
    · rintro e h
      cases h

variable (tot) in
lemma within_writeiLoop {fuel : ℕ} (ht : tot.toNat ≤ n.toNat) :
    Within (Span src (n.toNat - tot.toNat)) (writeiLoop ip n fuel tot off src) m fun _ _ => True := by
  induction fuel generalizing tot off src m with
  | zero => exact within_pure trivial
  | succ fuel ih =>
    unfold writeiLoop
    split_ifs with hlt hb
    · have := n.toNat_lt
      set c := min (n.toNat - tot.toNat) (BSIZE - off.toNat % BSIZE)
      have hcc : c.toUInt32.toNat = c := toNat_toUInt32 (by omega)
      have htot : (tot + c.toUInt32).toNat = tot.toNat + c := by
        rw [UInt32.toNat_add, hcc]
        omega
      have hsplit (b : UInt32) := span_add (a := src) (b := b) (k := c) (n := n.toNat - tot.toNat - c) (by omega)
      rw [show c + (n.toNat - tot.toNat - c) = n.toNat - tot.toNat by omega] at hsplit
      refine within_bind ((within_loads (by omega)).mono (fun b h => (hsplit b).2 (Or.inl h)) fun _ _ h => h) fun _ m' _ => ?_
      refine (ih _ (by omega)).mono (fun b h => (hsplit b).2 (Or.inr ?_)) fun _ _ h => h
      rwa [htot, Nat.sub_add_eq] at h
    · exact within_panic
    · exact within_pure trivial

variable (ip src off m) in
lemma within_writei (hn : 0 ≤ int32 n) :
    Within (Span src n.toNat) (writei ip src off n) m fun r _ => r = n ∨ r = -1 := by
  unfold writei
  split_ifs
  · exact within_pure (Or.inr rfl)
  · rw [← count_le hn]
    exact within_consolewrite.post fun _ _ h => Or.inl h
  · exact within_pure (Or.inr rfl)
  · exact within_pure (Or.inr rfl)
  · exact within_bind (within_writeiLoop 0 (Nat.zero_le _)) fun _ _ _ => within_pure (Or.inl rfl)

lemma within_filewriteLoop {fuel j i : ℕ} (hi : i ≤ count n) (hf : count n < i + fuel) :
    Within (Span (addr + i.toUInt32) (count n - i)) (filewriteLoop k addr n fuel j i) m fun _ _ => True := by
  induction fuel generalizing j i m with
  | zero => omega
  | succ fuel ih =>
    have := n.toNat_lt
    have := count_le_toNat (n := n)
    unfold filewriteLoop
    split_ifs with hlt heq
    · have hci : i < count n := by
        unfold count
        omega
      set c := min (count n - i) ((LOGSIZE - 1 - 1 - 2) / 2 * BSIZE) with hc
      have hlim : (LOGSIZE - 1 - 1 - 2) / 2 * BSIZE = 1536 := rfl
      have hcc : c.toUInt32.toNat = c := toNat_toUInt32 (by omega)
      have hpos : 0 ≤ int32 c.toUInt32 := by
        unfold int32
        rw [hcc, if_pos (by omega)]
        omega
      have hadd : addr + i.toUInt32 + c.toUInt32 = addr + (i + c).toUInt32 := by
        simp only [← UInt32.toNat_inj, UInt32.toNat_add, hcc, toNat_toUInt32 (show i < 2 ^ 32 by omega),
          toNat_toUInt32 (show i + c < 2 ^ 32 by omega)]
        omega
      have hsplit (b : UInt32) := span_add (a := addr + i.toUInt32) (b := b) (k := c) (n := count n - i - c) (by omega)
      rw [show c + (count n - i - c) = count n - i by omega, hadd] at hsplit
      have hw := within_writei m (k.locked j) (addr + i.toUInt32) (k.locked j).off hpos
      rw [hcc] at hw
      refine within_bind (hw.mono (fun b h => (hsplit b).2 (Or.inl h)) fun _ _ h => h) fun r m' hr => ?_
      split_ifs with hneg hshort
      · exact within_pure trivial
      · exact within_panic
      · refine (ih (by omega) (by omega)).mono (fun b h => (hsplit b).2 (Or.inr ?_)) fun _ _ h => h
        rwa [Nat.sub_add_eq] at h
    · exact within_pure trivial
    · exact within_pure trivial

lemma within_filewrite {f : File} : Within (Span addr (count n)) (filewrite k f addr n) m fun _ _ => True := by
  unfold filewrite
  split_ifs
  · exact within_pure trivial
  · cases f.type with
    | none => exact within_panic
    | pipe => exact within_pipewrite
    | inode =>
      have h0 : addr + (0 : ℕ).toUInt32 = addr := UInt32.add_zero addr
      have h : Within (Span (addr + (0 : ℕ).toUInt32) (count n - 0)) (filewriteLoop k addr n (count n + 1) 0 0) m fun _ _ => True :=
        within_filewriteLoop (Nat.zero_le _) (by omega)
      rwa [h0] at h

end UserMemory

end Os132

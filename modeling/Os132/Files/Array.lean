import Os132.Files.Written

/-!
# Files as arrays of bytes

`readi` and `writei` implement an array of bytes for each file: what is read is what the array has, and
what is written replaces a range of it, or extends it, and touches no other file. A write has to fit into
the log of the transaction.
-/

namespace Os132

namespace Files

open Prog

variable {stop : Stop → Prop} {s s' : State} {ip i j k b m n off o : ℕ} {l src : List UInt8}

/-- The bytes of inode `i`, none of whose blocks is missing. -/
def Contents (s : State) (i : ℕ) (l : List UInt8) : Prop := (view s i).size = l.length ∧ ∀ o, o < l.length → fileByte s i o = l[o]?

/-- A regular file with these bytes is locked at `ip`, in a consistent file system. -/
structure Stored (s : State) (ip : ℕ) (l : List UInt8) : Prop where
  blocks : Blocks False none s
  loaded : Loaded s ip
  held : s.held = []
  type : (s.icache ip).d.type = T_FILE
  contents : Contents s (s.icache ip).inum l

/-- There are blocks for `n` bytes at `off`, a transaction has begun, and its log has room for their sectors and
those of the bitmap, the inode and the indirect block. -/
def Roomy (s : State) (off n : ℕ) : Prop := n ≠ 0 → s.busy = true ∧ touched off n + 1 ≤ freeBlocks s ∧
  s.logged.length + touched off n + (s.sb.size / BPB + 1) + 2 < min LOGSIZE (s.sb.nlog - 1)

/-! ### Reading -/

/-- A block that is held is there for `bmap`. -/
lemma mapped_of_hold (h : hold (view s) s.data (i, place k) = some b) :
    Mapped s (view s i) k ∧ sector s (view s i) k = b := by
  unfold place at h
  unfold Mapped sector
  split_ifs at h ⊢ with hk
  · simp only [hold, if_pos hk.le] at h
    obtain ⟨h1, h2⟩ := block_eq.1 h
    exact ⟨⟨lt_of_lt_of_le hk (by decide), by rw [h1]; exact h2, fun h3 => absurd h3 (by omega)⟩, h1⟩
  · simp only [hold] at h
    split_ifs at h with hj
    obtain ⟨h1, h2⟩ := block_eq.1 h
    refine ⟨⟨?_, by rw [h1]; exact h2, fun _ => hj.1⟩, h1⟩
    unfold MAXFILE
    omega

lemma byteAt_of_fileByte {x : UInt8} (h : fileByte s i o = some x) : byteAt s (view s i) o = x := by
  unfold fileByte at h
  rw [Option.map_eq_some_iff] at h
  obtain ⟨c, hc, rfl⟩ := h
  rw [byteAt, (mapped_of_hold hc).2]

namespace Contents

lemma whole (h : Contents s i l) : Whole s (view s i) := by
  intro k hk
  rw [h.1] at hk
  have hb := h.2 (k * BSIZE) hk
  unfold fileByte at hb
  rw [Nat.mul_div_cancel k (by decide), List.getElem?_eq_getElem hk, Option.map_eq_some_iff] at hb
  obtain ⟨c, hc, -⟩ := hb
  exact (mapped_of_hold hc).1

lemma bytes (h : Contents s i l) (hn : off + n ≤ l.length) : bytesAt s (view s i) off n = (l.drop off).take n := by
  apply List.ext_getElem
  · rw [length_bytesAt, List.length_take, List.length_drop]
    omega
  · intro o h1 h2
    rw [length_bytesAt] at h1
    have hb := h.2 (off + o) (by omega)
    rw [List.getElem?_eq_getElem (by omega)] at hb
    simp only [bytesAt, List.getElem_map, List.getElem_range, List.getElem_take, List.getElem_drop]
    exact byteAt_of_fileByte hb

end Contents

lemma Stored.view (h : Stored s ip l) : Files.view s (s.icache ip).inum = (s.icache ip).d := view_loaded h.blocks.uniq h.loaded

lemma Stored.size (h : Stored s ip l) : (s.icache ip).d.size = l.length := by
  rw [← h.view]
  exact h.contents.1

lemma Sure.ok {α : Type} {p : Code α} {a : α} (h : Sure (fun _ => False) p s fun r s' => r = a ∧ s' = s) : p.run s = .ok (a, s) := by
  rcases h.run with ⟨r, s', hr, rfl, rfl⟩ | ⟨e, -, he⟩
  · exact hr
  · exact he.elim

/-! ### Writing -/

/-- The array after a write. -/
lemma Written.contents (hw : Written ip off src (max l.length (off + src.length)) s s') (hu : Loaded s ip)
    (hoff : off ≤ l.length) (h : Contents s (s.icache ip).inum l) :
    Contents s' (s.icache ip).inum (l.take off ++ src ++ l.drop (off + src.length)) := by
  have hview : view s' (s.icache ip).inum = (s'.icache ip).d := by
    rw [← hw.inum]
    exact view_loaded hw.blocks.uniq (hw.loaded hu)
  constructor
  · rw [hview, hw.size_eq, List.length_append, List.length_append, List.length_take, List.length_drop]
    omega
  · intro o ho
    rw [List.length_append, List.length_append, List.length_take, List.length_drop] at ho
    by_cases hin : off ≤ o ∧ o < off + src.length
    · rw [hw.new o hin.1 hin.2, List.append_assoc, List.getElem?_append_right (by rw [List.length_take]; omega),
        List.getElem?_append_left (by rw [List.length_take]; omega), List.length_take, min_eq_left hoff]
    · have hlt : o < l.length := by omega
      have hold := h.2 o hlt
      rw [List.getElem?_eq_getElem hlt] at hold
      rw [hw.kept o _ hin hold]
      by_cases hlo : o < off
      · rw [List.append_assoc, List.getElem?_append_left (by rw [List.length_take]; omega), List.getElem?_take, if_pos hlo,
          List.getElem?_eq_getElem hlt]
      · rw [List.getElem?_append_right (by rw [List.length_append, List.length_take]; omega), List.length_append, List.length_take,
          List.getElem?_drop, min_eq_left hoff, show off + src.length + (o - (off + src.length)) = o by omega,
          List.getElem?_eq_getElem hlt]

/-- Every other inode looks as it did. -/
lemma Written.view_other {size : ℕ} (hw : Written ip off src size s s') (hl : Loaded s ip) (hi : i ≠ (s.icache ip).inum) :
    view s' i = view s i := by
  have hlive : ∀ jp, Loaded s' jp ↔ Loaded s jp := by
    intro jp
    by_cases hj : jp = ip
    · rw [hj]
      exact ⟨fun _ => hl, fun _ => hw.loaded hl⟩
    · unfold Loaded Live
      rw [hw.other jp hj]
  refine view_congr hw.blocks.uniq (fun jp h1 h2 => ?_) fun hno => ?_
  · have hj : jp ≠ ip := by
      rintro rfl
      exact hi h2.symm
    exact ⟨(hlive jp).2 h1, by rw [hw.other jp hj]; exact h2, by rw [hw.other jp hj]⟩
  · rw [view_unloaded fun jp h1 h2 => ?_, hw.disk i hi]
    by_cases hj : jp = ip
    · rw [hj, hw.inum] at h2
      exact hi h2.symm
    · rw [hw.other jp hj] at h2
      exact hno jp ((hlive jp).1 h1) h2

lemma Contents.other {size : ℕ} (h : Contents s i l) (hw : Written ip off src size s s') (hl : Loaded s ip)
    (hi : i ≠ (s.icache ip).inum) : Contents s' i l := by
  refine ⟨by rw [hw.view_other hl hi]; exact h.1, fun o ho => ?_⟩
  have hold := h.2 o ho
  rw [List.getElem?_eq_getElem ho] at hold ⊢
  exact hw.theirs i o _ hi hold

lemma Stored.written (h : Stored s ip l) (hoff : off ≤ l.length)
    (hw : Written ip off src (max l.length (off + src.length)) s s') :
    Stored s' ip (l.take off ++ src ++ l.drop (off + src.length)) := by
  refine ⟨hw.blocks, hw.loaded h.loaded, hw.held, ?_, ?_⟩
  · obtain ⟨a, ha⟩ := hw.d
    rw [ha]
    exact h.type
  · rw [hw.inum]
    exact hw.contents h.loaded hoff h.contents

/-- What is provided for suffices. -/
lemma Roomy.fits (h : Roomy s off n) (hn : n ≠ 0) : Fits ip [] (touched off n) s := by
  obtain ⟨h1, h2, h3⟩ := h hn
  refine ⟨bitmapSectors s.sb ++ (IBLOCK (s.icache ip).inum :: if (s.icache ip).d.addrs NDIRECT = 0 then [] else [(s.icache ip).d.addrs NDIRECT]),
    fun x hx => List.mem_append_left _ hx, List.mem_append_right _ List.mem_cons_self, fun x hx => (by cases hx), fun h0 => ?_, ?_⟩
  · rw [if_neg h0]
    simp
  · refine ⟨h1, ?_, ?_⟩
    · have hlen := List.length_filter_le (· ∉ s.logged) (bitmapSectors s.sb ++ (IBLOCK (s.icache ip).inum ::
        if (s.icache ip).d.addrs NDIRECT = 0 then [] else [(s.icache ip).d.addrs NDIRECT]))
      have hb : (bitmapSectors s.sb).length = s.sb.size / BPB + 1 := by simp [bitmapSectors]
      rw [List.length_append, List.length_cons, hb] at hlen
      split_ifs at hlen ⊢
      · rw [List.length_nil] at hlen
        omega
      · rw [List.length_singleton] at hlen
        omega
    · split_ifs <;> omega

/-- `writei` replaces or adds a range of the bytes, while the other files stay as they were. -/
lemma Stored.writei (h : Stored s ip l) (hoff : off ≤ l.length) (hfit : off + src.length ≤ MAXFILE * BSIZE)
    (hroom : Roomy s off src.length) : ∃ s', (Files.writei ip src off).run s = .ok (some src.length, s') ∧
      Stored s' ip (l.take off ++ src ++ l.drop (off + src.length)) ∧
      ∀ i l', i ≠ (s.icache ip).inum → Contents s i l' → Contents s' i l' := by
  have ht : (s.icache ip).d.type ≠ T_DEV := by
    rw [h.type]
    decide
  have hsure : Sure (fun _ => False) (Files.writei ip src off) s fun r s' =>
      r = some src.length ∧ Written ip off src (max l.length (off + src.length)) s s' := by
    by_cases hn : src.length = 0
    · obtain rfl : src = [] := List.length_eq_zero_iff.1 hn
      have hmax : MAXFILE * BSIZE < 2 ^ 32 := by decide
      refine sure_bind (sure_inode ?_)
      rw [if_neg ht, if_neg (by rw [h.size, Nat.mod_eq_of_lt (by omega)]; omega), if_neg (by omega)]
      refine sure_bind (wp_pure (sure_bind (sure_inode ?_)))
      rw [if_neg (by omega)]
      refine wp_pure ⟨rfl, ?_⟩
      rw [hn, Nat.add_zero, max_eq_left hoff, ← h.size]
      exact Written.refl h.blocks h.held
    · refine sure_writei h.blocks h.loaded h.held ht (by rw [h.size]; exact hoff) hfit (hroom.fits hn) fun s' hw => ⟨rfl, ?_⟩
      rw [h.size] at hw
      exact hw
  rcases hsure.run with ⟨r, s', hr, rfl, hw⟩ | ⟨e, -, he⟩
  · exact ⟨s', hr, h.written hoff hw, fun i l' hi hc => hc.other hw h.loaded hi⟩
  · exact he.elim

/-- `readi` and `writei` on a regular file: an array of bytes, of which `readi` returns what there is from `off`
on and `writei` replaces or adds a range, while the other files stay as they were. -/
theorem readi_writei (h : Stored s ip l) :
    (∀ off n, off < 2 ^ 32 → n < 2 ^ 32 →
      (readi ip off n).run s = .ok (if off ≤ l.length ∧ off + n < 2 ^ 32 then some ((l.drop off).take n) else none, s)) ∧
    (∀ off src, off < 2 ^ 32 → src.length < 2 ^ 32 → ¬ (off ≤ l.length ∧ off + src.length ≤ MAXFILE * BSIZE) →
      (writei ip src off).run s = .ok (none, s)) ∧
    ∀ off src, off ≤ l.length → off + src.length ≤ MAXFILE * BSIZE → Roomy s off src.length →
      ∃ s', (writei ip src off).run s = .ok (some src.length, s') ∧
        Stored s' ip (l.take off ++ src ++ l.drop (off + src.length)) ∧
        ∀ i l', i ≠ (s.icache ip).inum → Contents s i l' → Contents s' i l' := by
  have ht : (s.icache ip).d.type ≠ T_DEV := by
    rw [h.type]
    decide
  refine ⟨fun off n ho hn => Sure.ok ?_, fun off src ho hn hno => Sure.ok ?_, fun off src hoff hfit hroom => ?_⟩
  · split_ifs with hok
    · have hmin : (l.drop off).take (min n (l.length - off)) = (l.drop off).take n := by
        rw [← List.length_drop]
        exact List.take_eq_take_iff.2 (by omega)
      refine sure_readi h.held rfl (by rw [← h.view]; exact h.contents.whole) ht (by rw [h.size]; exact hok.1) hok.2 ⟨?_, rfl⟩
      rw [h.size, ← h.view, h.contents.bytes (by omega), hmin]
    · refine sure_bind (sure_inode ?_)
      rw [if_neg ht, h.size, if_pos]
      · exact wp_pure ⟨rfl, rfl⟩
      · by_cases hoff : off ≤ l.length
        · right
          omega
        · left
          omega
  · refine sure_bind (sure_inode ?_)
    rw [if_neg ht, h.size]
    split_ifs with h1 h2
    · exact wp_pure ⟨rfl, rfl⟩
    · exact wp_pure ⟨rfl, rfl⟩
    · exfalso
      omega
  · exact h.writei hoff hfit hroom

/-! ### A write that is too large for the log -/

lemma sure_logWrite_full {x : ℕ} {post : Unit → State → Prop} (h : min LOGSIZE (s.sb.nlog - 1) ≤ s.logged.length)
    (hstop : stop (.panic "too big a transaction")) : Sure stop (logWrite x) s post := by
  refine wp_act (fun _ a t ht => ?_) fun _ e he => ?_
  · rw [if_pos (by omega)] at ht
    cases ht
  · rw [if_pos (by omega)] at he
    cases he
    exact hstop

lemma sure_logWrite_next {x : ℕ} {post : Unit → State → Prop} (h : s.logged.length < min LOGSIZE (s.sb.nlog - 1))
    (hbusy : s.busy = true) (hx : x ∉ s.logged) (hp : post () { s with logged := s.logged ++ [x] }) :
    Sure stop (logWrite x) s post := by
  refine sure_act ?_ hp
  rw [if_neg (by omega), if_neg (by simp [hbusy]), if_neg hx]

/-- Every block of a file is a sector in the log, so that a write of direct blocks that are there stops when the log is full. -/
lemma writeLoop_outgrows {fuel : ℕ} {d : Dinode} (hs : s.held = []) (hbusy : s.busy = true) (hd : (s.icache ip).d = d)
    (hne : ∀ k, k ≤ j + n → d.addrs k ≠ 0)
    (hinj : ∀ a b, a ≤ j + n → b ≤ j + n → d.addrs a = d.addrs b → a = b)
    (hcap : j + n = min LOGSIZE (s.sb.nlog - 1)) (hlt : j + n < NDIRECT) (hlog : s.logged = (List.range j).map d.addrs)
    (hsrc : n * BSIZE < src.length) (hfuel : src.length ≤ fuel) :
    Sure (· = .panic "too big a transaction") (writeLoop ip fuel (j * BSIZE) src) s fun _ _ => False := by
  induction n generalizing j src s fuel with
  | zero =>
    obtain ⟨fuel, rfl⟩ : ∃ f, fuel = f + 1 := ⟨fuel - 1, by omega⟩
    unfold writeLoop
    rw [if_neg (by omega), Nat.mul_div_cancel j (by decide)]
    have hmap : Mapped s (s.icache ip).d j := by
      refine ⟨by unfold MAXFILE; omega, ?_, fun h => by omega⟩
      rw [sector, if_pos (by omega), hd]
      exact hne j (by omega)
    refine sure_bind (sure_bmap hs hmap (sure_bind (sure_bread hs (sure_bind (sure_change (sure_bind ?_))))))
    refine sure_logWrite_full ?_ rfl
    show min LOGSIZE (s.sb.nlog - 1) ≤ s.logged.length
    rw [hlog, List.length_map, List.length_range]
    omega
  | succ n ih =>
    have hlen : BSIZE ≤ src.length := by
      rw [Nat.succ_mul] at hsrc
      omega
    have hpos : 0 < BSIZE := by decide
    obtain ⟨fuel, rfl⟩ : ∃ f, fuel = f + 1 := ⟨fuel - 1, by omega⟩
    unfold writeLoop
    rw [if_neg (by omega), Nat.mul_div_cancel j hpos, Nat.mul_mod_left, Nat.sub_zero, min_eq_right hlen]
    have hmap : Mapped s (s.icache ip).d j := by
      refine ⟨by unfold MAXFILE; omega, ?_, fun h => by omega⟩
      rw [sector, if_pos (by omega), hd]
      exact hne j (by omega)
    have hsec : sector s (s.icache ip).d j = d.addrs j := by rw [sector, if_pos (by omega), hd]
    refine sure_bind (sure_bmap hs hmap (sure_bind (sure_bread hs (sure_bind (sure_change (sure_bind ?_))))))
    rw [hsec]
    have hnew : d.addrs j ∉ s.logged := by
      rw [hlog]
      intro hm
      obtain ⟨k, hk, he⟩ := List.mem_map.1 hm
      rw [List.mem_range] at hk
      have := hinj k j (by omega) (by omega) he
      omega
    refine sure_logWrite_next ?_ hbusy hnew (sure_bind (sure_brelse rfl ?_))
    · show s.logged.length < min LOGSIZE (s.sb.nlog - 1)
      rw [hlog, List.length_map, List.length_range]
      omega
    · rw [← Nat.succ_mul]
      refine ih (j := j + 1) rfl hbusy hd (fun k hk => hne k (by omega)) (fun a b ha hb => hinj a b (by omega) (by omega)) ?_ (by omega) ?_ ?_ ?_
      · rw [show j + 1 + n = j + (n + 1) by omega]
        exact hcap
      · show s.logged ++ [d.addrs j] = (List.range (j + 1)).map d.addrs
        rw [hlog, List.range_succ, List.map_append, List.map_singleton]
      · rw [List.length_drop]
        rw [Nat.succ_mul] at hsrc
        omega
      · rw [List.length_drop]
        omega

/-- The only inode has ten blocks with the same contents. -/
def tenBlocks (type : Int16) (size : ℕ) (bytes : Block) : State where
  sb := ⟨1024, 985, 200, 10⟩
  dinode := fun i => if i = 1 then { Dinode.zero with type := type, nlink := 1, size := size, addrs := fun k => if k < 10 then 100 + k else 0 }
    else Dinode.zero
  bit := fun b => b < 110
  data := fun b => if b < 110 then bytes else fun _ => 0
  held := []
  icache := fun ip => ⟨1, if ip = 0 then 1 else 0, ip = 0, ip = 0,
    { Dinode.zero with type := type, nlink := 1, size := size, addrs := fun k => if k < 10 then 100 + k else 0 }⟩
  busy := true
  logged := []
  file := fun _ => ⟨.none, 0, false, false, 0, 0⟩
  proc := fun _ => ⟨0, fun _ => none⟩
  console := fun _ => []

section tenBlocks

variable {type : Int16} {size : ℕ} {bytes : Block}

lemma tenBlocks_live : Live (tenBlocks type size bytes) ip ↔ ip = 0 := by
  unfold Live tenBlocks NINODE
  dsimp only
  split_ifs with h
  · simp [h]
  · simp [h]

lemma tenBlocks_loaded : Loaded (tenBlocks type size bytes) ip ↔ ip = 0 := by
  unfold Loaded
  rw [tenBlocks_live]
  refine ⟨And.left, fun h => ⟨h, ?_⟩⟩
  rw [h]
  rfl

lemma tenBlocks_view : view (tenBlocks type size bytes) i = (tenBlocks type size bytes).dinode i := by
  have hu : Uniq (tenBlocks type size bytes) := fun ip jp h1 h2 _ => by rw [tenBlocks_live.1 h1, tenBlocks_live.1 h2]
  by_cases hi : i = 1
  · have := view_loaded hu (tenBlocks_loaded.2 (rfl : (0 : ℕ) = 0))
    rw [hi]
    exact this
  · rw [view_unloaded fun ip hl h => hi h.symm, Dinode.used]
    split_ifs
    · exact (if_neg hi).symm
    · rfl

lemma tenBlocks_hold {x : ℕ × Place} (h : hold (view (tenBlocks type size bytes)) (tenBlocks type size bytes).data x = some b) :
    ∃ k, k < 10 ∧ x = (1, .slot k) ∧ b = 100 + k := by
  have haddr : ∀ i k, ((tenBlocks type size bytes).dinode i).addrs k = if i = 1 ∧ k < 10 then 100 + k else 0 := by
    intro i k
    by_cases hi : i = 1
    · subst hi
      simp [tenBlocks]
    · have hz : (tenBlocks type size bytes).dinode i = Dinode.zero := if_neg hi
      rw [hz, if_neg fun h => hi h.1]
      rfl
  obtain ⟨i, k | j⟩ := x
  · simp only [hold, tenBlocks_view, haddr] at h
    split_ifs at h with hk hi
    · exact ⟨k, hi.2, by rw [hi.1], (block_eq.1 h).1.symm⟩
    · exact absurd (block_eq.1 h).1.symm (block_eq.1 h).2
  · simp only [hold, tenBlocks_view, haddr] at h
    rw [if_neg fun hc => hc.1 (if_neg fun hi => absurd hi.2 (by decide))] at h
    cases h

lemma tenBlocks_place {k : ℕ} (hk : k < 10) :
    hold (view (tenBlocks type size bytes)) (tenBlocks type size bytes).data (1, place k) = some (100 + k) := by
  have hplace : place k = .slot k := if_pos (by unfold NDIRECT; omega)
  rw [hplace]
  simp only [hold, tenBlocks_view]
  rw [if_pos (by unfold NDIRECT; omega)]
  refine block_eq.2 ⟨?_, by omega⟩
  show (if k < 10 then 100 + k else 0) = 100 + k
  rw [if_pos hk]

lemma tenBlocks_start : dataStart (tenBlocks type size bytes).sb = 29 := (by decide : dataStart ⟨1024, 985, 200, 10⟩ = 29)

lemma tenBlocks_blocks (ht : type ≠ 0) : Blocks False none (tenBlocks type size bytes) := by
  refine ⟨fun ip jp h1 h2 _ => ?_, fun ip k h1 hk => Or.inl ?_, fun ip h1 => ?_, ⟨fun x b hx => ?_, fun x b hx => ?_,
    fun x y b hx hy => ?_⟩, fun b hb => ?_, (by decide : 1024 < 2 ^ 32), fun h => h.elim⟩
  · rw [tenBlocks_live.1 h1, tenBlocks_live.1 h2]
  · rw [tenBlocks_loaded.1 h1]
    exact congrArg (fun d : Dinode => d.addrs k) (Dinode.used_of_type ht)
  · rw [tenBlocks_loaded.1 h1]
    exact ht
  · obtain ⟨k, hk, -, rfl⟩ := tenBlocks_hold hx
    show decide (100 + k < 110) = true
    rw [decide_eq_true_eq]
    omega
  · obtain ⟨k, hk, -, rfl⟩ := tenBlocks_hold hx
    rw [tenBlocks_start]
    omega
  · obtain ⟨k, -, rfl, hb⟩ := tenBlocks_hold hx
    obtain ⟨k', -, rfl, hb'⟩ := tenBlocks_hold hy
    rw [show k = k' by omega]
  · rw [tenBlocks_start] at hb
    show decide (b < 110) = true
    rw [decide_eq_true_eq]
    omega

lemma tenBlocks_byte (ho : o < 5120) : fileByte (tenBlocks type size bytes) 1 o = some (bytes (o % 512)) := by
  have hk : o / BSIZE < 10 := by
    unfold BSIZE
    omega
  rw [fileByte, tenBlocks_place hk, Option.map_some]
  show some ((if 100 + o / BSIZE < 110 then bytes else fun _ => 0) (o % BSIZE)) = _
  rw [if_pos (by omega)]
  rfl

end tenBlocks

/-- A file of ten blocks. -/
def tenBlockFile : State := tenBlocks T_FILE 5120 fun _ => 0

lemma tenBlockFile_stored : Stored tenBlockFile 0 (List.replicate 5120 0) := by
  refine ⟨tenBlocks_blocks (by decide), tenBlocks_loaded.2 rfl, rfl, rfl, ?_, fun o ho => ?_⟩
  · rw [List.length_replicate]
    exact congrArg Dinode.size tenBlocks_view
  · rw [List.length_replicate] at ho
    rw [List.getElem?_replicate, if_pos ho]
    exact tenBlocks_byte ho

theorem readi_writei_twoBlocks : ∃ s', (writei 0 [1, 2, 3, 4] 510).run tenBlockFile = .ok (some 4, s') ∧
    Stored s' 0 ((List.replicate 5120 0).take 510 ++ [1, 2, 3, 4] ++ (List.replicate 5120 0).drop (510 + 4)) := by
  have hfree : touched 510 4 + 1 ≤ freeBlocks tenBlockFile := by decide +kernel
  obtain ⟨s', h1, h2, -⟩ := (readi_writei tenBlockFile_stored).2.2 510 [1, 2, 3, 4] (by rw [List.length_replicate]; decide)
    (by decide) fun _ => ⟨rfl, hfree, by decide⟩
  exact ⟨s', h1, h2⟩

theorem writei_outgrows_log : ¬ ∀ s ip l off src, Stored s ip l → s.busy = true → s.logged = [] →
    touched off src.length + 1 ≤ freeBlocks s → off ≤ l.length → off + src.length ≤ MAXFILE * BSIZE →
    ∃ s', (writei ip src off).run s = .ok (some src.length, s') := by
  intro hall
  obtain ⟨src, hlen⟩ : ∃ src : List UInt8, src.length = 5120 := ⟨List.replicate 5120 1, List.length_replicate⟩
  have hfree : touched 0 5120 + 1 ≤ freeBlocks tenBlockFile := by decide +kernel
  obtain ⟨s', hrun⟩ := hall tenBlockFile 0 _ 0 src tenBlockFile_stored rfl rfl (by rw [hlen]; exact hfree) (Nat.zero_le _)
    (by rw [hlen]; decide)
  have hstop : Sure (· = .panic "too big a transaction") (writei 0 src 0) tenBlockFile fun _ _ => False := by
    refine sure_bind (sure_inode ?_)
    rw [hlen, if_neg (by decide), if_neg (by decide), if_neg (by decide)]
    have haddr : ∀ k, k ≤ 9 → (tenBlockFile.icache 0).d.addrs k = 100 + k := fun k hk => if_pos (by omega)
    have hloop : Sure (· = .panic "too big a transaction") (writeLoop 0 5120 (0 * BSIZE) src) tenBlockFile fun _ _ => False := by
      refine writeLoop_outgrows (d := (tenBlockFile.icache 0).d) (j := 0) (n := 9) rfl rfl rfl (fun k hk => ?_) (fun a b ha hb h => ?_)
        (by decide) (by decide) rfl (by rw [hlen]; decide) (le_of_eq hlen)
      · rw [haddr k (by omega)]
        omega
      · rw [haddr a (by omega), haddr b (by omega)] at h
        omega
    exact sure_bind (hloop.imp fun _ _ h => h.elim)
  rcases hstop.run with ⟨r, t, -, h⟩ | ⟨e, he, -⟩
  · exact h
  · rw [hrun] at he
    cases he

end Files

end Os132

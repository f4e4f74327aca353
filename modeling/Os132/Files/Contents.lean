import Os132.Files.Kept

/-!
# The bytes of a file

A file is the bytes in the sectors of its blocks, up to its size. `readi` returns them, and if no block
below the size is missing it leaves everything as it was.
-/

namespace Os132

namespace Files

open Prog

/-- Nothing is assumed of the actions. -/
def free : Guard State Label := ⟨fun _ _ => True, fun _ _ _ => True⟩

/-- Executed alone from `s`, the program returns with `post` or stops in one of the ways of `stop`. -/
abbrev Sure {α : Type} (stop : Stop → Prop) (p : Code α) (s : State) (post : α → State → Prop) : Prop := wp free p s post stop

variable {α β : Type} {stop : Stop → Prop} {s s' : State} {d : Dinode} {ip k off n : ℕ}

lemma meets_free {p : Code α} : Meets free p s := by
  induction p generalizing s with
  | ret a => trivial
  | step l f k ih =>
    simp only [Meets]
    refine ⟨trivial, ?_⟩
    cases f s with
    | error e => trivial
    | ok v => exact ih v.1

lemma Sure.run {p : Code α} {post : α → State → Prop} (h : Sure stop p s post) :
    (∃ a s', p.run s = .ok (a, s') ∧ post a s') ∨ ∃ e, p.run s = .error e ∧ stop e := by
  obtain ⟨-, h1, h2⟩ := wp.run h meets_free
  cases hr : p.run s with
  | error e => exact Or.inr ⟨e, rfl, h2 e hr⟩
  | ok v => exact Or.inl ⟨v.1, v.2, rfl, h1 v.1 v.2 hr⟩

lemma sure_bind {p : Code α} {g : α → Code β} {post : β → State → Prop}
    (h : Sure stop p s fun a s' => Sure stop (g a) s' post) : Sure stop (p >>= g) s post := wp_bind h

lemma sure_act {l : Label} {f : State → Except Stop (α × State)} {a : α} {t : State} {post : α → State → Prop} (hf : f s = .ok (a, t))
    (h : post a t) : Sure stop (Prog.act l f) s post := by
  refine wp_act (fun _ b t' ht => ⟨trivial, ?_⟩) fun _ e he => ?_
  · rw [hf] at ht
    cases ht
    exact h
  · rw [hf] at he
    cases he

lemma sure_look {f : State → α} {post : α → State → Prop} (h : post (f s) s) : Sure stop (look f) s post := sure_act rfl h

lemma sure_change {f : State → State} {post : Unit → State → Prop} (h : post () (f s)) : Sure stop (change f) s post :=
  sure_act rfl h

lemma sure_change_eq {f : State → State} {t : State} {post : Unit → State → Prop} (hf : f s = t) (h : post () t) :
    Sure stop (change f) s post := sure_change (hf ▸ h)

lemma sure_inode {post : Dinode → State → Prop} (h : post (s.icache ip).d s) : Sure stop (inode ip) s post := sure_look h

lemma sure_setInode {f : Dinode → Dinode} {post : Unit → State → Prop}
    (h : post () (s.setInode ip { s.icache ip with d := f (s.icache ip).d })) : Sure stop (setInode ip f) s post := sure_change h

lemma held_eq (h : s.held = []) : { s with held := [] } = s := by
  rw [← h]

lemma sure_bread_more {b : ℕ} {post : Unit → State → Prop} (hb : b ∉ s.held) (h : post () { s with held := b :: s.held }) :
    Sure stop (bread b) s post := by
  refine sure_act (a := ()) (t := { s with held := b :: s.held }) ?_ h
  rw [if_neg hb]

lemma sure_bread {b : ℕ} {post : Unit → State → Prop} (hs : s.held = []) (h : post () { s with held := [b] }) :
    Sure stop (bread b) s post := by
  refine sure_bread_more (by simp [hs]) ?_
  rw [hs]
  exact h

lemma sure_brelse {b : ℕ} {H : List ℕ} {post : Unit → State → Prop} (hs : s.held = b :: H) (h : post () { s with held := H }) :
    Sure stop (brelse b) s post := by
  refine sure_change ?_
  rw [hs, List.erase_cons_head]
  exact h

/-! ### Blocks -/

/-- The sector of block `k` of a file; 0 if there is none. -/
def sector (s : State) (d : Dinode) (k : ℕ) : ℕ :=
  if k < NDIRECT then d.addrs k else (s.data (d.addrs NDIRECT)).word (k - NDIRECT)

/-- Byte `o` of a file. -/
def byteAt (s : State) (d : Dinode) (o : ℕ) : UInt8 := s.data (sector s d (o / BSIZE)) (o % BSIZE)

/-- `n` bytes of a file from `off` on. -/
def bytesAt (s : State) (d : Dinode) (off n : ℕ) : List UInt8 := (List.range n).map fun i => byteAt s d (off + i)

@[simp] lemma length_bytesAt : (bytesAt s d off n).length = n := by simp [bytesAt]

/-- Block `k` of a file is there. -/
def Mapped (s : State) (d : Dinode) (k : ℕ) : Prop :=
  k < MAXFILE ∧ sector s d k ≠ 0 ∧ (NDIRECT ≤ k → d.addrs NDIRECT ≠ 0)

/-- No block below the size of a file is missing. -/
def Whole (s : State) (d : Dinode) : Prop := ∀ k, k * BSIZE < d.size → Mapped s d k

lemma sure_bmapAddr {post : ℕ → State → Prop} (h0 : (s.icache ip).d.addrs k ≠ 0) (h : post ((s.icache ip).d.addrs k) s) :
    Sure stop (bmapAddr ip k) s post := by
  refine sure_bind (sure_act rfl ?_)
  rw [if_neg h0]
  exact wp_pure h

lemma sure_bmapIndirect {b : ℕ} {post : ℕ → State → Prop} (hs : s.held = []) (h0 : (s.data b).word k ≠ 0)
    (h : post ((s.data b).word k) s) : Sure stop (bmapIndirect b k) s post := by
  refine sure_bind (sure_bread hs (sure_bind (sure_act rfl ?_)))
  rw [if_neg h0]
  refine sure_bind (sure_brelse rfl (wp_pure ?_))
  show post _ { s with held := [] }
  rw [held_eq hs]
  exact h

lemma sure_bmap {post : ℕ → State → Prop} (hs : s.held = []) (hk : Mapped s (s.icache ip).d k)
    (h : post (sector s (s.icache ip).d k) s) : Sure stop (bmap ip k) s post := by
  obtain ⟨h1, h2, h3⟩ := hk
  unfold sector at h2 h
  unfold bmap
  split_ifs at h2 h ⊢ with hd hi
  · exact sure_bmapAddr h2 h
  · exact sure_bind (sure_bmapAddr (h3 (by omega)) (sure_bmapIndirect hs h2 h))
  · unfold MAXFILE at h1
    omega

/-! ### Reading -/

lemma byteAt_pass {i : ℕ} (hi : i < BSIZE - off % BSIZE) :
    byteAt s d (off + i) = s.data (sector s d (off / BSIZE)) (off % BSIZE + i) := by
  have h1 : (off + i) / BSIZE = off / BSIZE ∧ (off + i) % BSIZE = off % BSIZE + i := by
    unfold BSIZE at hi ⊢
    omega
  rw [byteAt, h1.1, h1.2]

lemma bytesAt_add {m : ℕ} : bytesAt s d off (m + n) = bytesAt s d off m ++ bytesAt s d (off + m) n := by
  unfold bytesAt
  rw [List.range_add, List.map_append, List.map_map]
  congr 1
  apply List.map_congr_left
  intro i _
  show byteAt s d (off + (m + i)) = byteAt s d (off + m + i)
  rw [Nat.add_assoc]

lemma sure_readLoop {post : List UInt8 → State → Prop} (hs : s.held = []) (hd : (s.icache ip).d = d) (hw : Whole s d) (fuel : ℕ)
    (hfuel : n ≤ fuel) (hn : off + n ≤ d.size) (h : post (bytesAt s d off n) s) :
    Sure stop (readLoop ip fuel off n) s post := by
  induction fuel generalizing off n post with
  | zero =>
    obtain rfl : n = 0 := by omega
    exact wp_pure h
  | succ fuel ih =>
    unfold readLoop
    split_ifs with h0
    · subst h0
      exact wp_pure h
    · have hlt : off % BSIZE < BSIZE := Nat.mod_lt _ (by decide)
      have hmap : Mapped s d (off / BSIZE) := hw _ (by have := Nat.div_mul_le_self off BSIZE; omega)
      refine sure_bind (sure_bmap hs (hd ▸ hmap) (sure_bind (sure_bread hs (sure_bind (sure_look ?_)))))
      refine sure_bind (sure_brelse rfl (sure_bind ?_))
      show Sure stop _ { s with held := [] } _
      rw [held_eq hs]
      refine ih (by omega) (by omega) (wp_pure ?_)
      have hm : n = min n (BSIZE - off % BSIZE) + (n - min n (BSIZE - off % BSIZE)) := by omega
      have hbytes : bytesAt s d off n = ((List.range (min n (BSIZE - off % BSIZE))).map fun i =>
          s.data (sector s d (off / BSIZE)) (off % BSIZE + i)) ++
            bytesAt s d (off + min n (BSIZE - off % BSIZE)) (n - min n (BSIZE - off % BSIZE)) := by
        conv_lhs => rw [hm, bytesAt_add]
        congr 1
        apply List.map_congr_left
        intro i hi
        rw [List.mem_range] at hi
        exact byteAt_pass (by omega)
      rw [hd]
      rw [hbytes] at h
      exact h

lemma sure_readi {post : Option (List UInt8) → State → Prop} (hs : s.held = []) (hd : (s.icache ip).d = d) (hw : Whole s d)
    (ht : d.type ≠ T_DEV) (hoff : off ≤ d.size) (hn : off + n < 2 ^ 32)
    (h : post (some (bytesAt s d off (min n (d.size - off)))) s) : Sure stop (readi ip off n) s post := by
  refine sure_bind (sure_inode ?_)
  rw [hd, if_neg ht, if_neg (by rw [Nat.mod_eq_of_lt hn]; omega)]
  have hmin : (if d.size < off + n then d.size - off else n) = min n (d.size - off) := by
    split_ifs <;> omega
  simp only [hmin]
  exact sure_bind (sure_readLoop hs hd hw _ le_rfl (by omega) (wp_pure h))

end Files

end Os132

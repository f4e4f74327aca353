import Os132.Files.Freed

/-!
# The contents of files

`bmap` returns a sector that no inode uses as its indirect block, so that what `writei` writes changes
no addresses. A block that it allocates is on disk when `writei` returns, as the file has grown.
-/

namespace Os132

namespace Files

open Prog

variable {α β : Type} {strong : Prop} {dirty dirty' : Option ℕ} {C : Ctx} {L L' K K' : List ℕ} {s s' : State}
  {ip jp dp i k b : ℕ}

/-- The invariant, where the disk may lack blocks of `ip` only if the file has fewer than `n` bytes. -/
def Grown (strong : Prop) (C : Ctx) (L K : List ℕ) (ip n : ℕ) (s : State) : Prop :=
  Good strong none C L K s ∨ Good strong (some ip) C L K s ∧ (strong → (s.icache ip).d.size < n)

/-- What `bmap` keeps of the inode. -/
def SameSize (ip : ℕ) (s s' : State) : Prop := (s'.icache ip).d.size = (s.icache ip).d.size

namespace Grown

lemma loaded {n : ℕ} (h : Grown strong C L K ip n s) (hk : ip ∈ K) : Loaded s ip := by
  rcases h with h | ⟨h, -⟩ <;> exact h.locked ip hk

lemma blocks {n : ℕ} (h : Grown strong C L K ip n s) :
    ∃ dirty, Good strong dirty C L K s ∧ (dirty = none ∨ dirty = some ip) := by
  rcases h with h | ⟨h, -⟩
  · exact ⟨none, h, Or.inl rfl⟩
  · exact ⟨some ip, h, Or.inr rfl⟩

lemma of {n : ℕ} (h : Grown strong C L K ip n s) (hz : SameSize ip s s')
    (hg : ∀ dirty, Good strong dirty C L K s → Good strong dirty C L K s') : Grown strong C L K ip n s' := by
  rcases h with h | ⟨h, hs⟩
  · exact Or.inl (hg _ h)
  · refine Or.inr ⟨hg _ h, fun h1 => ?_⟩
    rw [hz]
    exact hs h1

lemma clean {n : ℕ} (h : Grown strong C L K ip n s) (hn : strong → n ≤ (s.icache ip).d.size) : Good strong none C L K s := by
  rcases h with h | ⟨h, hs⟩
  · exact h
  · by_cases hst : strong
    · have := hs hst
      have := hn hst
      omega
    · exact h.weaken hst

end Grown

lemma Grown.congr {n : ℕ} (hn : norm s' = norm s) (h : Grown strong C L K ip n s) : Grown strong C L K ip n s' := by
  refine h.of ?_ fun dirty h => ?_
  · rw [SameSize, norm_icache hn]
  · show At strong dirty C L K (norm s')
    rw [hn]
    exact h

lemma PastEnd.lt {d : Dinode} {n : ℕ} (h : PastEnd d k) (hn : k * BSIZE < n) : d.size < n := by
  unfold PastEnd at h
  omega

lemma norm_view (hn : norm s' = norm s) : view s' = view s := (congrArg view hn :)

/-- The state after `ip->addrs[i] = b`. -/
def State.setAddr (s : State) (ip i b : ℕ) : State :=
  s.setInode ip { s.icache ip with d :=
    { (s.icache ip).d with addrs := fun x => if x = i then b else (s.icache ip).d.addrs x } }

/-- A new block in an entry of `addrs`, in the inode cache only. -/
lemma At.addSlot (h : At strong dirty C L K s) (hk : ip ∈ K) (hd : dirty = none ∨ dirty = some ip) (hb : s.bit b = false)
    (ha : DataArea s.sb b) (hi : i ≤ NDIRECT) (hz : (s.icache ip).d.addrs i = 0) :
    At strong (some ip) C L K ((Blocks.allocated s b).setAddr ip i b) := by
  have hl := h.locked ip hk
  have hother : ∀ jp, (((Blocks.allocated s b).setAddr ip i b).icache jp).ref = (s.icache jp).ref ∧
      (((Blocks.allocated s b).setAddr ip i b).icache jp).valid = (s.icache jp).valid := by
    intro jp
    rw [State.setAddr]
    by_cases hj : jp = ip
    · rw [hj, setInode_self]
      exact ⟨rfl, rfl⟩
    · rw [setInode_ne hj]
      exact ⟨rfl, rfl⟩
  refine ⟨h.file, h.proc, h.blocks.addSlot hl hd hb ha hi hz, fun jp => ?_, fun jp hj => ?_, h.backed⟩
  · rw [Files.refs, (hother jp).1]
    exact h.refs jp
  · rw [Loaded, Live, (hother jp).1, (hother jp).2]
    exact h.locked jp hj

lemma safe_bmapAddr {n : ℕ} {post : ℕ → State → Prop} (h : Grown strong C L K ip n s) (hk : ip ∈ K) (hi : i ≤ NDIRECT)
    (hn : i * BSIZE < n)
    (hp : ∀ b s', Grown strong C L K ip n s' → SameSize ip s s' →
      hold (view s') s'.data ((s'.icache ip).inum, .slot i) = some b → post b s') : Safe strong (bmapAddr ip i) s post := by
  have hl := h.loaded hk
  obtain ⟨dirty, hg, hd⟩ := h.blocks
  have hb : Blocks strong dirty s := hg.blocks.of_norm
  refine safe_bind (wp_act (fun hm a s' h' => ?_) fun _ e h' => by cases h')
  cases h'
  refine ⟨fun x hx => absurd hx (Marks.irrefl rfl), ?_⟩
  split
  · rename_i h0
    obtain ⟨hroom, hpast⟩ := hm h0
    refine safe_bind (safe_balloc hroom hb.head fun b s₁ hbit harea hs₁ => safe_bind (safe_setInode (wp_pure ?_)))
    have hs₂ : norm (s₁.setAddr ip i b) = norm ((Blocks.allocated s b).setAddr ip i b) :=
      (congrArg (fun t : State => norm (t.setAddr ip i b)) hs₁ :)
    have hic : ((s₁.setAddr ip i b).icache ip).d = ((Blocks.allocated s b).setAddr ip i b |>.icache ip).d := by
      rw [norm_icache hs₂]
    have hadd : ((Blocks.allocated s b).setAddr ip i b |>.icache ip).d =
        { (s.icache ip).d with addrs := fun x => if x = i then b else (s.icache ip).d.addrs x } :=
      congrArg Inode.d (if_pos rfl)
    have hgood : Good strong (some ip) C L K (s₁.setAddr ip i b) := by
      show At strong (some ip) C L K (norm (s₁.setAddr ip i b))
      rw [hs₂]
      exact At.addSlot hg hk hd hbit harea hi h0
    refine hp b (s₁.setAddr ip i b) (Or.inr ⟨hgood, fun hs => ?_⟩) ?_ ?_
    · rw [hic, hadd]
      exact (hpast hs).lt hn
    · rw [SameSize, hic, hadd]
    · rw [hold_slot hgood.blocks.of_norm.uniq (hgood.locked ip hk) hi, hic, hadd]
      show block (if i = i then b else _) = some b
      rw [if_pos rfl]
      exact block_eq.2 ⟨rfl, Blocks.area_pos harea⟩
  · rename_i h0
    refine wp_pure (hp _ s h rfl ?_)
    rw [hold_slot hb.uniq hl hi]
    exact block_eq.2 ⟨rfl, h0⟩

/-- A block that no inode has as its indirect block. -/
def Plain (s : State) (b : ℕ) : Prop := ∀ i, (view s i).addrs NDIRECT ≠ b

lemma Plain.norm (h : Plain s b) (hn : norm s' = norm s) : Plain s' b := by
  rw [Plain, norm_view hn]
  exact h

lemma safe_bmapIndirect {n j a : ℕ} {post : ℕ → State → Prop} (h : Grown strong C L K ip n s) (hk : ip ∈ K) (hj : j < NINDIRECT)
    (ha : hold (view s) s.data ((s.icache ip).inum, .slot NDIRECT) = some a)
    (hp : ∀ b s', Grown strong C L K ip n s' → SameSize ip s s' → Plain s' b → post b s') :
    Safe strong (bmapIndirect a j) s post := by
  have hl := h.loaded hk
  obtain ⟨dirty, hg, hd⟩ := h.blocks
  have hb : Blocks strong dirty s := hg.blocks.of_norm
  have hac := hold_slot hb.uniq hl (le_refl NDIRECT)
  rw [ha] at hac
  obtain ⟨haddr, h0⟩ := block_eq.1 hac.symm
  refine safe_bind (safe_bread fun hd => safe_bind (wp_act (fun hm a s' h' => ?_) fun _ e h' => by cases h'))
  cases h'
  refine ⟨fun x hx => absurd hx (Marks.irrefl rfl), ?_⟩
  split
  · rename_i hz
    refine safe_bind (safe_balloc (hm hz) hb.head fun b s₁ hbit harea hs₁ => ?_)
    refine safe_bind (safe_change (fun _ h => h) (safe_bind (safe_logWrite fun lg => safe_bind (safe_brelse fun hd' =>
      wp_pure ?_))))
    generalize hs₂ : ({ s₁.setData a ((s₁.data a).setWord j b) with logged := lg, held := hd' } : State) = s₂
    have hab : a ≠ b := by
      rintro rfl
      exact hb.not_held hbit _ ha
    have hdata : (Blocks.allocated s b).data a = s.data a := if_neg hab
    have hn₂ : norm s₂ = norm ((Blocks.allocated s b).setData a ((s.data a).setWord j b)) := by
      rw [← hs₂, ← hdata]
      exact congrArg (fun t : State => norm (t.setData a ((t.data a).setWord j b))) hs₁
    have hblocks : ∀ dirty, Blocks strong dirty s →
        Blocks strong dirty ((Blocks.allocated s b).setData a ((s.data a).setWord j b)) :=
      fun dirty hb => hb.addWord ha hj hz hbit harea
    refine hp b s₂ (h.of ?_ fun dirty hg => ?_) ?_ fun i hi => ?_
    · rw [SameSize, norm_icache hn₂]
      rfl
    · show At strong dirty C L K (norm s₂)
      rw [hn₂]
      exact hg.of_blocks ((hblocks _ hg.blocks.of_norm).congr rfl rfl rfl rfl (fun _ => Iff.rfl) (fun _ => rfl) (fun _ => rfl)
        fun _ => rfl) rfl rfl rfl
    · rw [SameSize, norm_icache hn₂]
      rfl
    · rw [norm_view hn₂] at hi
      exact hb.not_indirect_of_free hbit (Blocks.area_pos harea) i hi
  · rename_i hz
    refine safe_bind (safe_brelse fun hd' => wp_pure (hp _ _ (h.congr rfl) rfl fun i => ?_))
    refine hb.not_indirect (x := ((s.icache ip).inum, .word j)) ?_ (by simp) i
    rw [hold_word hb.uniq hl (by rw [haddr]; exact h0) hj, haddr]
    exact block_eq.2 ⟨rfl, hz⟩

lemma safe_bmap {n bn : ℕ} {post : ℕ → State → Prop} (h : Grown strong C L K ip n s) (hk : ip ∈ K) (hn : bn * BSIZE < n)
    (hp : ∀ b s', Grown strong C L K ip n s' → SameSize ip s s' → Plain s' b → post b s') : Safe strong (bmap ip bn) s post := by
  unfold bmap
  split_ifs with h1 h2
  · refine safe_bmapAddr h hk h1.le hn fun b s' hg hz hb => hp b s' hg hz ?_
    obtain ⟨dirty, hg, -⟩ := hg.blocks
    refine hg.blocks.of_norm.not_indirect hb fun i hi => ?_
    have := congrArg Prod.snd hi
    simp only [Place.slot.injEq] at this
    omega
  · have h12 : NDIRECT * BSIZE < n := lt_of_le_of_lt (Nat.mul_le_mul_right BSIZE (by omega)) hn
    refine safe_bind (safe_bmapAddr h hk le_rfl h12 fun a s₁ hg hz ha => ?_)
    exact safe_bmapIndirect hg hk h2 ha fun b s' hg hz' hb => hp b s' hg (hz'.trans hz) hb
  · exact safe_panic (by decide)

lemma div_mul_lt {off n : ℕ} (h : off < n) : off / BSIZE * BSIZE < n :=
  lt_of_le_of_lt (Nat.div_mul_le_self off BSIZE) h

/-- Reading within the file allocates nothing. -/
lemma safe_readLoop {post : List UInt8 → State → Prop} (hk : ip ∈ K) (fuel off n : ℕ) (h : Good strong none C L K s)
    (hn : strong → off + n ≤ (s.icache ip).d.size) (hp : ∀ r s', Good strong none C L K s' → post r s') :
    Safe strong (readLoop ip fuel off n) s post := by
  induction fuel generalizing off n s post with
  | zero => exact wp_pure (hp _ _ h)
  | succ fuel ih =>
    unfold readLoop
    split_ifs with h0
    · exact wp_pure (hp _ _ h)
    · refine safe_bind (safe_bmap (n := off + n) (Or.inl h) hk (div_mul_lt (by omega)) fun b s₁ h₁ hz₁ _ => ?_)
      have hsize : strong → off + n ≤ (s₁.icache ip).d.size := fun hs => by
        rw [hz₁]
        exact hn hs
      have hg : Good strong none C L K s₁ := h₁.clean hsize
      refine safe_bind (safe_bread fun hd => safe_bind (safe_look (safe_bind (safe_brelse fun hd' => safe_bind ?_))))
      refine ih _ _ hg (fun hs => ?_) fun r s' hg' => wp_pure (hp _ _ hg')
      have := hsize hs
      show _ ≤ (s₁.icache ip).d.size
      have := Nat.min_le_left n (BSIZE - off % BSIZE)
      omega

lemma safe_readi {off n : ℕ} {post : Option (List UInt8) → State → Prop} (h : Good strong none C L K s) (hk : ip ∈ K)
    (hp : ∀ r s', Good strong none C L K s' → post r s') : Safe strong (readi ip off n) s post := by
  refine safe_bind (safe_inode ?_)
  split_ifs with h1 h2 h3 h4
  · refine safe_bind (safe_iunlock h (h.locked ip hk).1 fun s₁ h₁ => safe_bind (safe_look (safe_bind ?_)))
    refine safe_ilock h₁ (h.backed ip hk) fun s₂ h₂ => wp_pure (hp _ _ ?_)
    exact h₂.sub fun jp hj => List.mem_cons_of_mem _ hj
  · exact wp_pure (hp _ _ h)
  · exact wp_pure (hp _ _ h)
  · exact safe_bind (safe_readLoop hk _ _ _ h (fun _ => by omega) fun r s' h' => wp_pure (hp _ _ h'))
  · exact safe_bind (safe_readLoop hk _ _ _ h (fun _ => by omega) fun r s' h' => wp_pure (hp _ _ h'))

lemma safe_writeLoop {N : ℕ} {post : Unit → State → Prop} (hk : ip ∈ K) (fuel off : ℕ) (src : List UInt8)
    (h : Grown strong C L K ip N s) (hn : off + src.length ≤ N)
    (hp : ∀ s', Grown strong C L K ip N s' → SameSize ip s s' → post () s') : Safe strong (writeLoop ip fuel off src) s post := by
  induction fuel generalizing off src s post with
  | zero => exact wp_pure (hp _ h rfl)
  | succ fuel ih =>
    unfold writeLoop
    split_ifs with h0
    · exact wp_pure (hp _ h rfl)
    · refine safe_bind (safe_bmap h hk (div_mul_lt (by omega)) fun b s₁ h₁ hz₁ hb => ?_)
      refine safe_bind (safe_bread fun hd => safe_bind (safe_change (fun _ h => h)
        (safe_bind (safe_logWrite fun lg => safe_bind (safe_brelse fun hd' => ih _ _ ?_ ?_ fun s' h' hz' => ?_)))))
      · refine h₁.of rfl fun dirty hg => ?_
        exact At.of_blocks hg (hg.blocks.write hb _) rfl rfl rfl
      · have := Nat.min_le_left src.length (BSIZE - off % BSIZE)
        rw [List.length_drop]
        omega
      · exact hp _ h' (hz'.trans hz₁)

lemma safe_writei {off : ℕ} {src : List UInt8} {post : Option ℕ → State → Prop} (h : Good strong none C L K s) (hk : ip ∈ K)
    (hp : ∀ r s', Good strong none C L K s' → post r s') : Safe strong (writei ip src off) s post := by
  refine safe_bind (safe_inode ?_)
  split_ifs with h1 h2 h3 h4
  · refine safe_bind (safe_iunlock h (h.locked ip hk).1 fun s₁ h₁ => safe_bind ?_)
    refine safe_ilock h₁ (h.backed ip hk) fun s₂ h₂ => wp_pure (hp _ _ ?_)
    exact h₂.sub fun jp hj => List.mem_cons_of_mem _ hj
  · exact wp_pure (hp _ _ h)
  · exact wp_pure (hp _ _ h)
  · exact wp_pure (hp _ _ h)
  · refine safe_bind (safe_writeLoop (N := off + src.length) hk _ _ _ (Or.inl h) le_rfl fun s₁ h₁ hz₁ => ?_)
    have hz₁ : (s₁.icache ip).d.size = (s.icache ip).d.size := hz₁
    refine safe_bind (safe_inode ?_)
    split_ifs with h5
    · -- the file has grown
      obtain ⟨dirty, hg, hd⟩ := h₁.blocks
      have hl : Loaded s₁ ip := hg.locked ip hk
      have hg₂ := hg.setMeta (d := { (s₁.icache ip).d with size := off + src.length }) hl (hg.blocks.typed ip hl) fun _ _ => rfl
      refine safe_bind (safe_setInode (safe_bind (safe_iupdate hg₂ (hg₂.locked ip hk) hd fun s' h' _ => wp_pure (hp _ _ h'))))
    · refine wp_pure (hp _ _ (h₁.clean fun _ => ?_))
      rw [hz₁] at h5 ⊢
      omega

end Files

end Os132

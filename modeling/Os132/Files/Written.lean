import Os132.Files.Room
import Os132.Files.Image

/-!
# Writing to a file

`writei` puts its bytes where they belong and leaves all other bytes of all files as they were: a block
that `bmap` takes was free, and no two places hold the same block.
-/

namespace Os132

namespace Files

open Prog

variable {stop : Stop → Prop} {s s' t : State} {ip jp i j k b m off o size : ℕ} {F : List ℕ} {src src' : List UInt8} {dirty : Option ℕ}

/-- Byte `o` of inode `i`, if its block is there. -/
def fileByte (s : State) (i o : ℕ) : Option UInt8 :=
  (hold (view s) s.data (i, place (o / BSIZE))).map fun c => s.data c (o % BSIZE)

/-- `src` has been written at `off` to the file at `ip`, which is now `size` bytes long. -/
structure Written (ip off : ℕ) (src : List UInt8) (size : ℕ) (s s' : State) : Prop where
  blocks : Blocks False none s'
  sb : s'.sb = s.sb
  file : s'.file = s.file
  proc : s'.proc = s.proc
  held : s'.held = []
  disk : ∀ j, j ≠ (s.icache ip).inum → s'.dinode j = s.dinode j
  other : ∀ jp, jp ≠ ip → s'.icache jp = s.icache jp
  self : ∃ a, s'.icache ip = { s.icache ip with d := { (s.icache ip).d with addrs := a, size := size } }
  theirs : ∀ j o x, j ≠ (s.icache ip).inum → fileByte s j o = some x → fileByte s' j o = some x
  kept : ∀ o x, ¬ (off ≤ o ∧ o < off + src.length) → fileByte s (s.icache ip).inum o = some x →
    fileByte s' (s.icache ip).inum o = some x
  new : ∀ o, off ≤ o → o < off + src.length → fileByte s' (s.icache ip).inum o = src[o - off]?

namespace Written

lemma inum (h : Written ip off src size s s') : (s'.icache ip).inum = (s.icache ip).inum := by
  obtain ⟨a, ha⟩ := h.self
  rw [ha]

lemma d (h : Written ip off src size s s') : ∃ a, (s'.icache ip).d = { (s.icache ip).d with addrs := a, size := size } := by
  obtain ⟨a, ha⟩ := h.self
  exact ⟨a, by rw [ha]⟩

lemma size_eq (h : Written ip off src size s s') : (s'.icache ip).d.size = size := by
  obtain ⟨a, ha⟩ := h.d
  rw [ha]

lemma loaded (h : Written ip off src size s s') (hl : Loaded s ip) : Loaded s' ip := by
  obtain ⟨a, ha⟩ := h.self
  unfold Loaded Live
  rw [ha]
  exact hl

/-- Two pieces are written one after the other. -/
lemma trans {size' : ℕ} (h : Written ip off src size s s') (h' : Written ip (off + src.length) src' size' s' t) :
    Written ip off (src ++ src') size' s t := by
  have hi := h.inum
  obtain ⟨a, ha⟩ := h.self
  obtain ⟨a', ha'⟩ := h'.self
  refine ⟨h'.blocks, h'.sb.trans h.sb, h'.file.trans h.file, h'.proc.trans h.proc, h'.held, fun j hj => ?_, fun jp hj => ?_,
    ⟨a', by rw [ha', ha]⟩, fun j o x hj hx => ?_, fun o x ho hx => ?_, fun o h1 h2 => ?_⟩
  · rw [h'.disk j (by rwa [hi]), h.disk j hj]
  · rw [h'.other jp hj, h.other jp hj]
  · exact h'.theirs j o x (by rwa [hi]) (h.theirs j o x hj hx)
  · rw [List.length_append] at ho
    have := h'.kept o x (by omega)
    rw [hi] at this
    exact this (h.kept o x (by omega) hx)
  · rw [List.length_append] at h2
    by_cases hlt : o < off + src.length
    · have hnew := h.new o h1 hlt
      rw [List.getElem?_append_left (by omega)]
      cases hx : src[o - off]? with
      | none =>
        rw [List.getElem?_eq_none_iff] at hx
        omega
      | some x =>
        rw [hx] at hnew
        have := h'.kept o x (by omega)
        rw [hi] at this
        exact this hnew
    · have := h'.new o (by omega) (by omega)
      rw [hi] at this
      rw [this, List.getElem?_append_right (by omega)]
      congr 1
      omega

end Written

lemma Blocks.clean (h : Blocks False dirty s) : Blocks False none s :=
  ⟨h.uniq, fun ip k h1 h2 => (h.disk ip k h1 h2).imp id fun h3 => ⟨fun h4 => h4.elim, h3.2⟩, h.typed, h.owns, h.head, h.small,
    fun h1 => h1.elim⟩

lemma Blocks.transfer (h : Blocks False dirty t) (hn : norm s' = norm t) : Blocks False none s' := by
  have hnorm : Blocks False dirty (norm s') := by
    rw [hn]
    exact h.congr rfl rfl rfl rfl (fun _ => Iff.rfl) (fun _ => rfl) (fun _ => rfl) fun _ => rfl
  exact hnorm.of_norm.clean

/-! ### New blocks -/

/-- What the places hold after a new block is put in an entry of `addrs`. -/
lemma hold_addSlot (h : Blocks False dirty s) (hl : Loaded s ip) (hb : s.bit b = false) (h0 : b ≠ 0) (hk : k ≤ NDIRECT)
    (hz : (s.icache ip).d.addrs k = 0) (ht : t = (Blocks.allocated s b).setAddr ip k b) :
    hold (view s) s.data ((s.icache ip).inum, .slot k) = none ∧ hold (view t) t.data ((s.icache ip).inum, .slot k) = some b ∧
      ∀ y, y ≠ ((s.icache ip).inum, .slot k) → hold (view t) t.data y = hold (view s) s.data y := by
  have hu : Uniq (Blocks.allocated s b) := h.uniq
  obtain ⟨-, hview, hv, -⟩ := Blocks.view_setInode hu (show Live (Blocks.allocated s b) ip from hl.1) (v := { s.icache ip with
      d := { (s.icache ip).d with addrs := fun x => if x = k then b else (s.icache ip).d.addrs x } }) ⟨rfl, hl.1.2⟩
  have hview : ∀ i, i ≠ (s.icache ip).inum → view t i = view s i := by
    intro i hi
    rw [ht]
    exact hview i hi
  have hvs := view_loaded h.uniq hl
  have haddr : ∀ x, (view t (s.icache ip).inum).addrs x = if x = k then b else (view s (s.icache ip).inum).addrs x := by
    intro x
    rw [hvs, ht]
    exact congrArg (fun d : Dinode => d.addrs x) (hv hl.2)
  refine hold_setSlot hk h0 (hvs ▸ hz) (fun i x => ?_) (h.not_indirect_of_free hb h0) (by rw [ht]; exact if_pos rfl) fun c hc => by
    rw [ht]
    exact if_neg hc
  by_cases hi : i = (s.icache ip).inum
  · rw [hi, haddr]
    simp
  · rw [hview i hi, if_neg fun h => hi h.1]

/-- What the places hold after a new block is put in an entry of an indirect block. -/
lemma hold_addWord {a : ℕ} (h : Blocks False dirty s) (hi : hold (view s) s.data (i, .slot NDIRECT) = some a) (hj : j < NINDIRECT)
    (hz : (s.data a).word j = 0) (hb : s.bit b = false) (ha : DataArea s.sb b)
    (ht : t = (Blocks.allocated s b).setData a ((s.data a).setWord j b)) :
    hold (view s) s.data (i, .word j) = none ∧ hold (view t) t.data (i, .word j) = some b ∧
      ∀ y, y ≠ (i, .word j) → hold (view t) t.data y = hold (view s) s.data y := by
  have h0 : b ≠ 0 := Blocks.area_pos ha
  have hai : (view s i).addrs NDIRECT = a ∧ a ≠ 0 := by
    simp only [hold, le_refl, if_true] at hi
    exact block_eq.1 hi
  have hlt : b < 2 ^ 32 := by
    have h1 := ha.2
    have h2 := h.small
    unfold dataEnd at h1
    omega
  have hview : view t = view s := by rw [ht]; rfl
  rw [hview]
  refine hold_putWord hj h0 hlt hai.1 hai.2 (fun i' hi' => ?_) (h.not_indirect_of_free hb h0) hz (by rw [ht]; exact if_pos rfl)
    fun c h1 h2 => ?_
  · have : hold (view s) s.data (i', .slot NDIRECT) = some a := by
      simp only [hold, le_refl, if_true]
      exact block_eq.2 ⟨hi', hai.2⟩
    exact (Prod.mk.inj (h.owns.once _ _ a this hi)).1
  · rw [ht]
    show (if c = a then _ else if c = b then _ else s.data c) = s.data c
    rw [if_neg h1, if_neg h2]

lemma fileByte_mono {x : UInt8} (hm : ∀ y c, hold (view s) s.data y = some c → hold (view s') s'.data y = some c)
    (hd : ∀ y c, y.2 ≠ .slot NDIRECT → hold (view s) s.data y = some c → s'.data c = s.data c) (hx : fileByte s i o = some x) :
    fileByte s' i o = some x := by
  unfold fileByte at hx ⊢
  rw [Option.map_eq_some_iff] at hx
  obtain ⟨c, hc, rfl⟩ := hx
  rw [hm _ _ hc, Option.map_some, hd _ _ (place_ne_indirect _) hc]

lemma Written.of_mono (hb : Blocks False none s') (hn : s'.sb = s.sb ∧ s'.file = s.file ∧ s'.proc = s.proc ∧ s'.held = [])
    (hdisk : s'.dinode = s.dinode) (hother : ∀ jp, jp ≠ ip → s'.icache jp = s.icache jp)
    (hself : ∃ a, s'.icache ip = { s.icache ip with d := { (s.icache ip).d with addrs := a } })
    (hm : ∀ y c, hold (view s) s.data y = some c → hold (view s') s'.data y = some c)
    (hd : ∀ y c, y.2 ≠ .slot NDIRECT → hold (view s) s.data y = some c → s'.data c = s.data c) :
    Written ip off [] (s.icache ip).d.size s s' := by
  obtain ⟨a, ha⟩ := hself
  refine ⟨hb, hn.1, hn.2.1, hn.2.2.1, hn.2.2.2, fun j _ => by rw [hdisk], hother, ⟨a, ha⟩, fun j o x _ hx => fileByte_mono hm hd hx,
    fun o x _ hx => fileByte_mono hm hd hx, fun o h1 h2 => ?_⟩
  rw [List.length_nil] at h2
  omega

lemma Written.refl (h : Blocks False none s) (hs : s.held = []) : Written ip off [] (s.icache ip).d.size s s :=
  Written.of_mono h ⟨rfl, rfl, rfl, hs⟩ rfl (fun _ _ => rfl) ⟨(s.icache ip).d.addrs, rfl⟩ (fun _ _ h => h) fun _ _ _ _ => rfl

/-! ### bmap -/

/-- The blocks and the room in the log suffice for `m` blocks of the file, and for an indirect block. The
sectors of `X` may be logged too. -/
def Fits (ip : ℕ) (X : List ℕ) (m : ℕ) (s : State) : Prop :=
  ∃ F, (∀ x ∈ bitmapSectors s.sb, x ∈ F) ∧ IBLOCK (s.icache ip).inum ∈ F ∧ (∀ x ∈ X, x ∈ F) ∧
    ((s.icache ip).d.addrs NDIRECT ≠ 0 → (s.icache ip).d.addrs NDIRECT ∈ F) ∧
    Budget F (m + if (s.icache ip).d.addrs NDIRECT = 0 then 1 else 0) s

/-- `bmap` of an entry of `addrs`. -/
lemma sure_takeAddr {post : ℕ → State → Prop} (h : Blocks False none s) (hl : Loaded s ip) (hs : s.held = []) (hk : k ≤ NDIRECT)
    (hF : ∀ x ∈ bitmapSectors s.sb, x ∈ F) (hb : (s.icache ip).d.addrs k = 0 → Budget F (m + 1) s)
    (hp : ∀ b s', Written ip off [] (s.icache ip).d.size s s' → hold (view s') s'.data ((s.icache ip).inum, .slot k) = some b →
      (∀ x, (s'.icache ip).d.addrs x = if x = k then b else (s.icache ip).d.addrs x) →
      ((s.icache ip).d.addrs k ≠ 0 → s' = s) → ((s.icache ip).d.addrs k = 0 → Budget (b :: F) m s') → post b s') :
    Sure stop (bmapAddr ip k) s post := by
  refine sure_bind (sure_act rfl ?_)
  split
  · rename_i h0
    refine sure_bind (sure_balloc (.of_held hs) (hb h0) hF h.head fun b s₁ hbit harea hs₁ hheld₁ hlog₁ hbud₁ => ?_)
    refine sure_bind (sure_setInode (wp_pure ?_))
    generalize ht : (Blocks.allocated s b).setAddr ip k b = t
    have hn : norm (s₁.setAddr ip k b) = norm t := by
      rw [← ht]
      exact (congrArg (fun t : State => norm (t.setAddr ip k b)) hs₁ :)
    have hpos := Blocks.area_pos harea
    obtain ⟨hnone, hnew, hsame⟩ := hold_addSlot h hl hbit hpos hk h0 ht.symm
    have hview : view (s₁.setAddr ip k b) = view t := norm_view hn
    have hdata : (s₁.setAddr ip k b).data = t.data := norm_data hn
    have hic : (s₁.setAddr ip k b).icache = t.icache := norm_icache hn
    have hself : t.icache ip = { s.icache ip with d :=
        { (s.icache ip).d with addrs := fun x => if x = k then b else (s.icache ip).d.addrs x } } := by
      rw [← ht]
      exact if_pos rfl
    have hblocks : Blocks False none (s₁.setAddr ip k b) := by
      refine Blocks.transfer (h.addSlot hl (Or.inl rfl) hbit harea hk h0) ?_
      rw [hn, ← ht]
      rfl
    refine hp b (s₁.setAddr ip k b) (Written.of_mono hblocks ⟨?_, ?_, ?_, hheld₁.trans hs⟩ ?_ (fun jp hj => ?_)
      ⟨fun x => if x = k then b else (s.icache ip).d.addrs x, ?_⟩ (fun y c hy => ?_) fun y c _ hy => ?_) ?_ (fun x => ?_) (fun h1 => absurd h0 h1) fun _ => ?_
    · exact (norm_sb hs₁).trans rfl
    · exact (norm_file hs₁).trans rfl
    · exact (norm_proc hs₁).trans rfl
    · exact (norm_dinode hs₁).trans rfl
    · rw [hic, ← ht]
      exact setInode_ne hj
    · rw [hic]
      exact hself
    · rw [hview, hdata, hsame y fun he => by rw [he, hnone] at hy; cases hy]
      exact hy
    · rw [hdata, ← ht]
      refine if_neg fun hc => h.not_held hbit y ?_
      rwa [← hc]
    · rw [hview, hdata]
      exact hnew
    · rw [hic, hself]
    · exact (hbud₁.add_logged hlog₁).setInode
  · rename_i h0
    refine wp_pure (hp _ s (Written.refl h hs) ?_ (fun x => ?_) (fun _ => rfl) fun h1 => absurd h1 h0)
    · rw [hold_slot h.uniq hl hk]
      exact block_eq.2 ⟨rfl, h0⟩
    · split_ifs with hx
      · rw [hx]
      · rfl

/-- `bmap` of an entry of the indirect block `a`. -/
lemma sure_takeWord {a : ℕ} {post : ℕ → State → Prop} (h : Blocks False none s) (hs : s.held = [])
    (ha : hold (view s) s.data ((s.icache ip).inum, .slot NDIRECT) = some a) (hj : j < NINDIRECT)
    (hF : ∀ x ∈ bitmapSectors s.sb, x ∈ F) (haF : a ∈ F) (hb : Budget F (m + 1) s)
    (hp : ∀ b s', Written ip off [] (s.icache ip).d.size s s' → hold (view s') s'.data ((s.icache ip).inum, .word j) = some b →
      s'.icache = s.icache → Budget (b :: F) m s' → post b s') : Sure stop (bmapIndirect a j) s post := by
  have hai : (view s (s.icache ip).inum).addrs NDIRECT = a ∧ a ≠ 0 := by
    simp only [hold, le_refl, if_true] at ha
    exact block_eq.1 ha
  refine sure_bind (sure_bread hs (sure_bind (sure_act rfl ?_)))
  split
  · rename_i hz
    have hapart : Apart { s with held := [a] } := fun x hx => by
      obtain rfl : x = a := by simpa using hx
      exact ⟨h.owns.inside _ _ ha, h.owns.marked _ _ ha⟩
    refine sure_bind (sure_balloc hapart ⟨hb.busy, hb.log, hb.blocks⟩ hF h.head fun b s₁ hbit harea hs₁ hheld₁ hlog₁ hbud₁ => ?_)
    have hab : a ≠ b := by
      rintro rfl
      exact h.not_held hbit _ ha
    generalize ht : (Blocks.allocated s b).setData a ((s.data a).setWord j b) = t
    have hdata₁ : s₁.data a = s.data a := by
      rw [norm_data hs₁]
      exact if_neg hab
    have hn : norm (s₁.setData a ((s₁.data a).setWord j b)) = norm t := by
      rw [← ht, hdata₁]
      exact (congrArg (fun t : State => norm (t.setData a ((s.data a).setWord j b))) hs₁ :)
    have hbud₂ : Budget (b :: F) m (s₁.setData a ((s₁.data a).setWord j b)) := by
      have := hbud₁.add_logged hlog₁
      exact ⟨this.busy, this.log, this.blocks⟩
    refine sure_bind (sure_change (sure_bind (sure_logWrite hbud₂ (List.mem_cons_of_mem _ haF) fun lg _ hbud₃ => ?_)))
    refine sure_bind (sure_brelse hheld₁ (wp_pure ?_))
    generalize hs₂ : ({ s₁.setData a ((s₁.data a).setWord j b) with logged := lg, held := [] } : State) = s₂
    have hn₂ : norm s₂ = norm t := by
      rw [← hs₂, ← hn]
      rfl
    obtain ⟨hnone, hnew, hsame⟩ := hold_addWord h ha hj hz hbit harea ht.symm
    have hview : view s₂ = view t := norm_view hn₂
    have hdata : s₂.data = t.data := norm_data hn₂
    have hic : s₂.icache = s.icache := by
      rw [norm_icache hn₂, ← ht]
      rfl
    refine hp b s₂ (Written.of_mono ((h.addWord ha hj hz hbit harea).transfer (hn₂.trans (by rw [← ht])))
      ⟨?_, ?_, ?_, by rw [← hs₂]⟩ ?_ (fun jp _ => by rw [hic]) ⟨(s.icache ip).d.addrs, by rw [hic]⟩ (fun y c hy => ?_)
      fun y c hne hy => ?_) ?_ hic ?_
    · rw [norm_sb hn₂, ← ht]
      rfl
    · rw [norm_file hn₂, ← ht]
      rfl
    · rw [norm_proc hn₂, ← ht]
      rfl
    · rw [norm_dinode hn₂, ← ht]
      rfl
    · rw [hview, hdata, hsame y fun he => by rw [he, hnone] at hy; cases hy]
      exact hy
    · have hca : c ≠ a := by
        rintro rfl
        exact hne (congrArg Prod.snd (h.owns.once _ _ _ hy ha))
      have hcb : c ≠ b := by
        rintro rfl
        exact h.not_held hbit y hy
      rw [hdata, ← ht]
      show (if c = a then _ else if c = b then _ else s.data c) = s.data c
      rw [if_neg hca, if_neg hcb]
    · rw [hview, hdata]
      exact hnew
    · rw [← hs₂]
      exact ⟨hbud₃.busy, hbud₃.log, hbud₃.blocks⟩
  · rename_i hz
    refine sure_bind (sure_brelse rfl (wp_pure ?_))
    show post _ { s with held := [] }
    rw [held_eq hs]
    refine hp _ s (Written.refl h hs) ?_ rfl hb.add
    simp only [hold, hai.1]
    rw [if_pos ⟨hai.2, hj⟩]
    exact block_eq.2 ⟨rfl, hz⟩

/-- `bmap` of a block that may be missing. -/
lemma sure_bmap_fits {bn : ℕ} {post : ℕ → State → Prop} (h : Blocks False none s) (hl : Loaded s ip) (hs : s.held = [])
    (hbn : bn < MAXFILE) (hf : Fits ip [] (m + 1) s)
    (hp : ∀ b s', Written ip off [] (s.icache ip).d.size s s' → hold (view s') s'.data ((s.icache ip).inum, place bn) = some b →
      Fits ip [b] m s' → post b s') : Sure stop (bmap ip bn) s post := by
  obtain ⟨F, hF, hi, -, hind, hb⟩ := hf
  unfold bmap
  split_ifs with h1 h2
  · have hplace : place bn = .slot bn := if_pos h1
    refine sure_takeAddr (m := m + if (s.icache ip).d.addrs NDIRECT = 0 then 1 else 0) h hl hs h1.le hF
      (fun _ => hb.mono (by omega)) fun b s' hw hold haddr hsame hbud => hp b s' hw (by rw [hplace]; exact hold) ?_
    have h12 : (s'.icache ip).d.addrs NDIRECT = (s.icache ip).d.addrs NDIRECT := by
      rw [haddr, if_neg (by omega)]
    refine ⟨b :: F, fun x hx => List.mem_cons_of_mem _ (hF x (by rwa [← hw.sb])), ?_, fun x hx => ?_, fun h0 => ?_, ?_⟩
    · rw [hw.inum]
      exact List.mem_cons_of_mem _ hi
    · rw [List.mem_singleton.1 hx]
      exact List.mem_cons_self
    · rw [h12] at h0 ⊢
      exact List.mem_cons_of_mem _ (hind h0)
    · rw [h12]
      by_cases h0 : (s.icache ip).d.addrs bn = 0
      · exact hbud h0
      · rw [hsame h0]
        exact (hb.mono (n := m + (if (s.icache ip).d.addrs NDIRECT = 0 then 1 else 0) + 1) (by omega)).add
  · have hplace : place bn = .word (bn - NDIRECT) := if_neg h1
    refine sure_bind (sure_takeAddr (m := m + 1) h hl hs le_rfl hF (fun h0 => ?_)
      fun a s₁ (hw₁ : Written ip off [] _ s s₁) hold₁ haddr₁ hsame₁ hbud₁ => ?_)
    · rw [if_pos h0] at hb
      exact hb
    have ha : (s₁.icache ip).d.addrs NDIRECT = a := by rw [haddr₁, if_pos rfl]
    have h0 : a ≠ 0 := by
      rintro rfl
      simp only [hold, le_refl, if_true] at hold₁
      exact absurd rfl (block_eq.1 hold₁).2
    -- the indirect block is provided for
    obtain ⟨F₁, hsub, haF, hb₁⟩ : ∃ F₁, (∀ x ∈ F, x ∈ F₁) ∧ a ∈ F₁ ∧ Budget F₁ (m + 1) s₁ := by
      by_cases hz : (s.icache ip).d.addrs NDIRECT = 0
      · exact ⟨a :: F, fun x hx => List.mem_cons_of_mem _ hx, List.mem_cons_self, hbud₁ hz⟩
      · refine ⟨F, fun x hx => hx, ?_, ?_⟩
        · rw [← ha, hsame₁ hz]
          exact hind hz
        · rw [hsame₁ hz]
          exact hb.mono (by omega)
    refine sure_takeWord hw₁.blocks hw₁.held (by rw [hw₁.inum]; exact hold₁) h2 (fun x hx => hsub x (hF x (by rwa [← hw₁.sb]))) haF hb₁
      fun b s' hw hold hic hbud => hp b s' (hw₁.trans (by rw [hw₁.size_eq] at hw; exact hw)) ?_ ?_
    · rw [hplace, ← hw₁.inum]
      exact hold
    · refine ⟨b :: F₁, fun x hx => List.mem_cons_of_mem _ (hsub x (hF x (by rwa [← hw₁.sb, ← hw.sb]))), ?_, fun x hx => ?_, fun _ => ?_, ?_⟩
      · rw [hic, hw₁.inum]
        exact List.mem_cons_of_mem _ (hsub _ hi)
      · rw [List.mem_singleton.1 hx]
        exact List.mem_cons_self
      · rw [hic, ha]
        exact List.mem_cons_of_mem _ haF
      · rw [hic, ha, if_neg h0]
        exact hbud
  · unfold MAXFILE at hbn
    omega

/-! ### writei -/

/-- The bytes that go into one block. -/
lemma Written.block (h : Blocks False none s) (hs : s'.held = [])
    (hb : hold (view s) s.data ((s.icache ip).inum, place (off / BSIZE)) = some b) (hlen : src.length ≤ BSIZE - off % BSIZE)
    (hn : norm s' = norm (s.setData b ((s.data b).copy (off % BSIZE) src))) :
    Written ip off src (s.icache ip).d.size s s' := by
  have hplain := h.not_indirect hb fun i hi => place_ne_indirect _ (congrArg Prod.snd hi)
  have hview : view s' = view s := (norm_view hn).trans rfl
  have hdata : ∀ c, s'.data c = if c = b then (s.data b).copy (off % BSIZE) src else s.data c := fun c => by
    rw [norm_data hn]
    rfl
  have hic : s'.icache = s.icache := (norm_icache hn).trans rfl
  have hhold : hold (view s') s'.data = hold (view s) s.data := by
    rw [hview]
    funext x
    obtain ⟨i, k | j⟩ := x
    · rfl
    · simp only [hold, hdata, if_neg (hplain i)]
  have hbyte : ∀ j o, (j, o / BSIZE) ≠ ((s.icache ip).inum, off / BSIZE) → fileByte s' j o = fileByte s j o := by
    intro j o hne
    unfold fileByte
    rw [hhold]
    cases hc : hold (view s) s.data (j, place (o / BSIZE)) with
    | none => rfl
    | some c =>
      have hcb : c ≠ b := by
        rintro rfl
        have := h.owns.once _ _ _ hc hb
        exact hne (Prod.ext (Prod.mk.inj this).1 (place_inj (Prod.mk.inj this).2))
      rw [Option.map_some, Option.map_some, hdata, if_neg hcb]
  have hsame : ∀ o, o / BSIZE = off / BSIZE →
      fileByte s' (s.icache ip).inum o = some ((s.data b).copy (off % BSIZE) src (o % BSIZE)) ∧
        fileByte s (s.icache ip).inum o = some (s.data b (o % BSIZE)) := by
    intro o ho
    unfold fileByte
    rw [hhold, ho, hb, Option.map_some, Option.map_some, hdata, if_pos rfl]
    exact ⟨rfl, rfl⟩
  have hpos : off % BSIZE < BSIZE := Nat.mod_lt _ (by decide)
  have hoff := Nat.div_add_mod off BSIZE
  refine ⟨(h.write hplain _).transfer hn, (norm_sb hn).trans rfl, (norm_file hn).trans rfl, (norm_proc hn).trans rfl, hs,
    fun j _ => ?_, fun jp _ => by rw [hic], ⟨(s.icache ip).d.addrs, by rw [hic]⟩, fun j o x hj hx => ?_, fun o x ho hx => ?_,
    fun o h1 h2 => ?_⟩
  · rw [norm_dinode hn]
    rfl
  · rw [hbyte j o fun he => hj (congrArg Prod.fst he)]
    exact hx
  · by_cases hk : o / BSIZE = off / BSIZE
    · obtain ⟨h3, h4⟩ := hsame o hk
      rw [h4] at hx
      have hr := Nat.div_add_mod o BSIZE
      rw [hk] at hr
      rw [h3, ← hx]
      unfold Block.copy
      split_ifs with hle
      · rw [List.getElem?_eq_none (by omega)]
        rfl
      · rfl
    · rw [hbyte _ o fun he => hk (congrArg Prod.snd he)]
      exact hx
  · have hk : o / BSIZE = off / BSIZE := by
      unfold BSIZE at hlen ⊢
      omega
    have hr := Nat.div_add_mod o BSIZE
    rw [hk] at hr
    rw [(hsame o hk).1, Block.copy, if_pos (by omega), show o % BSIZE - off % BSIZE = o - off by omega]
    cases hx : src[o - off]? with
    | none =>
      rw [List.getElem?_eq_none_iff] at hx
      omega
    | some x => rfl

/-- The number of blocks in which `n` bytes from `off` on lie. -/
def touched (off n : ℕ) : ℕ := if n = 0 then 0 else (off % BSIZE + n + (BSIZE - 1)) / BSIZE

lemma touched_pass {n : ℕ} (h0 : n ≠ 0) :
    touched off n = touched (off + min n (BSIZE - off % BSIZE)) (n - min n (BSIZE - off % BSIZE)) + 1 := by
  unfold touched BSIZE
  rw [if_neg h0]
  split_ifs with h <;> omega

lemma Fits.sub {X : List ℕ} (h : Fits ip X m s) : Fits ip [] m s := by
  obtain ⟨F, h1, h2, -, h3, h4⟩ := h
  exact ⟨F, h1, h2, fun x hx => (by cases hx), h3, h4⟩

lemma sure_writeLoop {post : Unit → State → Prop} (fuel : ℕ) (hfuel : src.length ≤ fuel) (h : Blocks False none s) (hl : Loaded s ip)
    (hs : s.held = []) (hn : off + src.length ≤ MAXFILE * BSIZE) (hf : Fits ip [] (touched off src.length) s)
    (hp : ∀ s', Written ip off src (s.icache ip).d.size s s' → Fits ip [] 0 s' → post () s') :
    Sure stop (writeLoop ip fuel off src) s post := by
  induction fuel generalizing off src s post with
  | zero =>
    obtain rfl : src = [] := List.length_eq_zero_iff.1 (by omega)
    exact wp_pure (hp s (Written.refl h hs) hf)
  | succ fuel ih =>
    unfold writeLoop
    split_ifs with h0
    · obtain rfl : src = [] := List.length_eq_zero_iff.1 h0
      exact wp_pure (hp s (Written.refl h hs) hf)
    · have hlt : off / BSIZE < MAXFILE := by
        rw [Nat.div_lt_iff_lt_mul (by decide)]
        omega
      have hmod : off % BSIZE < BSIZE := Nat.mod_lt _ (by decide)
      rw [touched_pass h0] at hf
      refine sure_bind (sure_bmap_fits h hl hs hlt hf fun b s₁ (hw₁ : Written ip off [] _ s s₁) hold₁ hf₁ => ?_)
      refine sure_bind (sure_bread hw₁.held (sure_bind (sure_change (sure_bind ?_))))
      generalize hm : min src.length (BSIZE - off % BSIZE) = m at hf₁
      obtain ⟨F, hF, hi, hX, hind, hb⟩ := hf₁
      refine sure_logWrite (F := F) ⟨hb.busy, hb.log, hb.blocks⟩ (hX b (List.mem_singleton.2 rfl)) fun lg _ hb₂ => ?_
      refine sure_bind (sure_brelse rfl ?_)
      have hlen : (src.take m).length = m := by
        rw [List.length_take]
        omega
      -- the state with the bytes of this block
      generalize hs₂ : ({ ({ s₁ with held := [b] } : State).setData b ((s₁.data b).copy (off % BSIZE) (src.take m)) with
        logged := lg, held := [] } : State) = s₂
      have hw : Written ip off (src.take m) (s.icache ip).d.size s s₂ := by
        have hblock : Written ip off (src.take m) (s₁.icache ip).d.size s₁ s₂ := by
          refine Written.block hw₁.blocks (by rw [← hs₂]) (by rw [hw₁.inum]; exact hold₁) (by omega) ?_
          rw [← hs₂]
          rfl
        rw [hw₁.size_eq] at hblock
        exact hw₁.trans hblock
      have hf₂ : Fits ip [] (touched (off + m) (src.length - m)) s₂ := by
        rw [← hs₂]
        refine ⟨F, hF, hi, fun x hx => (by cases hx), hind, ?_⟩
        exact ⟨hb₂.busy, hb₂.log, hb₂.blocks⟩
      refine ih (s := s₂) (by rw [List.length_drop]; omega) hw.blocks (hw.loaded hl) hw.held (by rw [List.length_drop]; omega)
        (by rw [List.length_drop]; exact hf₂) fun s' hw' hf' => hp s' ?_ hf'
      rw [hw.size_eq] at hw'
      have htwo : Written ip off (src.take m ++ src.drop m) (s.icache ip).d.size s s' := hw.trans (by rw [hlen]; exact hw')
      rwa [List.take_append_drop] at htwo

/-- The file has grown, in the cache and on disk. -/
lemma Written.grow {N : ℕ} (h : Blocks False none s) (hl : Loaded s ip) (hs : s'.held = [])
    (hn : norm s' = norm ((s.setInode ip { s.icache ip with d := { (s.icache ip).d with size := N } }).setDinode (s.icache ip).inum
      { (s.icache ip).d with size := N })) : Written ip off [] N s s' := by
  generalize hv : ({ s.icache ip with d := { (s.icache ip).d with size := N } } : Inode) = v at hn
  have hvi : v.inum = (s.icache ip).inum := by rw [← hv]
  have hvd : v.d = { (s.icache ip).d with size := N } := by rw [← hv]
  have hview := view_loaded h.uniq hl
  have hcopy : Blocks False none (s.setInode ip v) := by
    refine h.copy hl.1 ⟨hvi, by rw [← hv]; exact hl.1.2⟩ (by rw [← hv]; exact hl.2) ?_ fun k _ => ?_
    · rw [hvd]
      exact h.typed ip hl
    · rw [hvi, hview, hvd]
  have hl₁ : Loaded (s.setInode ip v) ip := by
    unfold Loaded Live
    rw [setInode_self, ← hv]
    exact hl
  have hup := hcopy.update hl₁ (Or.inl rfl)
  rw [setInode_self, hvi, hvd] at hup
  have hblocks : Blocks False none s' := hup.transfer hn
  have hic : s'.icache = (s.setInode ip v).icache := (norm_icache hn).trans rfl
  have hself : s'.icache ip = v := by rw [hic, setInode_self]
  have hother : ∀ jp, jp ≠ ip → s'.icache jp = s.icache jp := fun jp hj => by rw [hic, setInode_ne hj]
  have hdisk : ∀ j, j ≠ (s.icache ip).inum → s'.dinode j = s.dinode j := fun j hj => by
    rw [norm_dinode hn]
    exact if_neg hj
  have hlive : ∀ jp, Loaded s' jp ↔ Loaded s jp := by
    intro jp
    unfold Loaded Live
    by_cases hj : jp = ip
    · rw [hj, hself, ← hv]
    · rw [hother jp hj]
  have haddr : ∀ i k, (view s' i).addrs k = (view s i).addrs k := by
    intro i k
    by_cases hi : i = (s.icache ip).inum
    · have h1 := view_loaded hblocks.uniq ((hlive ip).2 hl)
      rw [hself, hvi, hvd] at h1
      rw [hi, h1, hview]
    · have h1 : view s' i = view s i := by
        refine view_congr hblocks.uniq (fun jp h1 h2 => ?_) fun hno => ?_
        · have hj : jp ≠ ip := by
            rintro rfl
            exact hi h2.symm
          exact ⟨(hlive jp).2 h1, by rw [hother jp hj]; exact h2, by rw [hother jp hj]⟩
        · rw [view_unloaded fun jp h1 h2 => ?_, hdisk i hi]
          by_cases hj : jp = ip
          · rw [hj, hself, hvi] at h2
            exact hi h2.symm
          · rw [hother jp hj] at h2
            exact hno jp ((hlive jp).1 h1) h2
      rw [h1]
  have hdata : s'.data = s.data := (norm_data hn).trans rfl
  have hbyte : ∀ j o, fileByte s' j o = fileByte s j o := by
    intro j o
    unfold fileByte
    rw [hdata, hold_congr fun i k _ => haddr i k]
  refine ⟨hblocks, (norm_sb hn).trans rfl, (norm_file hn).trans rfl, (norm_proc hn).trans rfl, hs, hdisk, hother,
    ⟨(s.icache ip).d.addrs, by rw [hself, ← hv]⟩, fun j o x _ hx => by rw [hbyte]; exact hx, fun o x _ hx => by rw [hbyte]; exact hx,
    fun o h1 h2 => ?_⟩
  rw [List.length_nil] at h2
  omega

/-- `writei` of bytes that a file can take. -/
lemma sure_writei {post : Option ℕ → State → Prop} (h : Blocks False none s) (hl : Loaded s ip) (hs : s.held = [])
    (ht : (s.icache ip).d.type ≠ T_DEV) (hoff : off ≤ (s.icache ip).d.size) (hn : off + src.length ≤ MAXFILE * BSIZE)
    (hf : Fits ip [] (touched off src.length) s)
    (hp : ∀ s', Written ip off src (max (s.icache ip).d.size (off + src.length)) s s' → post (some src.length) s') :
    Sure stop (writei ip src off) s post := by
  have hmax : MAXFILE * BSIZE < 2 ^ 32 := by decide
  refine sure_bind (sure_inode ?_)
  rw [if_neg ht, if_neg (by rw [Nat.mod_eq_of_lt (by omega)]; omega), if_neg (by omega)]
  refine sure_bind (sure_writeLoop _ le_rfl h hl hs hn hf fun s₁ hw₁ hf₁ => sure_bind (sure_inode ?_))
  rw [hw₁.size_eq]
  split_ifs with hgrow
  · obtain ⟨F, -, hi, -, -, hb⟩ := hf₁
    refine sure_bind (sure_setInode (sure_bind (sure_bind (sure_look (sure_bind (sure_bread hw₁.held (sure_bind (sure_change
      (sure_bind ?_)))))))))
    have hbud : Budget F 0 s₁ := hb.mono (by omega)
    have hi : IBLOCK ((s₁.setInode ip { s₁.icache ip with d := { (s₁.icache ip).d with size := off + src.length } }).icache ip).inum ∈ F := by
      rw [setInode_self]
      exact hi
    refine sure_logWrite (F := F) (m := 0) ⟨hbud.busy, hbud.log, hbud.blocks⟩ hi fun lg _ _ => ?_
    refine sure_brelse rfl (wp_pure (hp _ ?_))
    rw [max_eq_right (by omega)]
    have hgrown : ∀ s', s'.held = [] → norm s' = norm (State.setDinode
        (s₁.setInode ip { s₁.icache ip with d := { (s₁.icache ip).d with size := off + src.length } }) (s₁.icache ip).inum
        { (s₁.icache ip).d with size := off + src.length }) → Written ip off src (off + src.length) s s' := fun s' h1 h2 => by
      have hall := hw₁.trans (Written.grow hw₁.blocks (hw₁.loaded hl) h1 h2)
      rwa [List.append_nil] at hall
    refine hgrown _ rfl ?_
    show norm (State.setDinode (s₁.setInode ip { s₁.icache ip with d := { (s₁.icache ip).d with size := off + src.length } })
      ((s₁.setInode ip { s₁.icache ip with d := { (s₁.icache ip).d with size := off + src.length } }).icache ip).inum
      ((s₁.setInode ip { s₁.icache ip with d := { (s₁.icache ip).d with size := off + src.length } }).icache ip).d) = _
    rw [setInode_self]
  · refine wp_pure (hp s₁ ?_)
    rw [max_eq_left (by omega)]
    exact hw₁

end Files

end Os132

import Os132.Files.Kept

/-!
# Freeing an inode

While `itrunc` runs the bitmap and the addresses do not agree. `Trunc` says how far it has come: the
blocks of the places in `gone` are given back and the addresses in `clear` are zero. At the end `ifree`
has turned the inode into a free one, and the invariant holds again.
-/

namespace Os132

namespace Files

open Prog

variable {α β : Type} {strong : Prop} {dirty dirty' : Option ℕ} {C : Ctx} {L L' K J : List ℕ} {s₀ s s' : State}
  {ip jp dp i k b : ℕ} {gone gone' : Place → Prop} {clear clear' : ℕ → Prop}

/-- A state on the way of `itrunc` from `s₀`. -/
structure Trunc (s₀ : State) (ip : ℕ) (gone : Place → Prop) (clear : ℕ → Prop) (s : State) : Prop where
  sb : s.sb = s₀.sb
  data : s.data = s₀.data
  file : s.file = s₀.file
  proc : s.proc = s₀.proc
  dinode : ∀ i, i ≠ (s₀.icache ip).inum → s.dinode i = s₀.dinode i
  other : ∀ jp, jp ≠ ip → s.icache jp = s₀.icache jp
  inum : (s.icache ip).inum = (s₀.icache ip).inum
  ref : (s.icache ip).ref = (s₀.icache ip).ref
  cleared : ∀ k, k ≤ NDIRECT → clear k → (s.icache ip).d.addrs k = 0
  kept : ∀ k, k ≤ NDIRECT → ¬ clear k → (s.icache ip).d.addrs k = (s₀.icache ip).d.addrs k
  bit : ∀ c, s.bit c = true ↔
    s₀.bit c = true ∧ ∀ x, gone x → hold (view s₀) s₀.data ((s₀.icache ip).inum, x) ≠ some c

namespace Trunc

lemma norm (h : Trunc s₀ ip gone clear s) (hn : Files.norm s' = Files.norm s) : Trunc s₀ ip gone clear s' where
  sb := (norm_sb hn).trans h.sb
  data := (norm_data hn).trans h.data
  file := (norm_file hn).trans h.file
  proc := (norm_proc hn).trans h.proc
  dinode i hi := by rw [norm_dinode hn, h.dinode i hi]
  other jp hj := by rw [norm_icache hn, h.other jp hj]
  inum := by rw [norm_icache hn, h.inum]
  ref := by rw [norm_icache hn, h.ref]
  cleared := by
    rw [norm_icache hn]
    exact h.cleared
  kept := by
    rw [norm_icache hn]
    exact h.kept
  bit := by
    rw [norm_bit hn]
    exact h.bit

lemma more (h : Trunc s₀ ip gone clear s)
    (hg : ∀ x, gone' x ↔ gone x ∨ gone' x ∧ hold (view s₀) s₀.data ((s₀.icache ip).inum, x) = none) :
    Trunc s₀ ip gone' clear s := by
  refine { h with bit := fun c => (h.bit c).trans (and_congr_right fun _ => ⟨fun h1 x hx => ?_, fun h1 x hx => ?_⟩) }
  · rcases (hg x).1 hx with hx | ⟨-, hx⟩
    · exact h1 x hx
    · rw [hx]
      simp
  · exact h1 x ((hg x).2 (Or.inl hx))

/-- The entries of a set are cleared. -/
lemma clears (h : Trunc s₀ ip gone clear s) {d : Dinode} (hd : ∀ x, d.addrs x = if x = k then 0 else (s.icache ip).d.addrs x) (hc : ∀ x, clear' x ↔ clear x ∨ x = k) :
    Trunc s₀ ip gone clear' (s.setInode ip { s.icache ip with d := d }) where
  sb := h.sb
  data := h.data
  file := h.file
  proc := h.proc
  dinode := h.dinode
  other jp hj := (setInode_ne hj).trans (h.other jp hj)
  inum := by rw [setInode_self, h.inum]
  ref := by rw [setInode_self, h.ref]
  cleared x hx hcx := by
    rw [setInode_self]
    show d.addrs x = 0
    rw [hd]
    split_ifs with hxk
    · rfl
    · exact h.cleared x hx (((hc x).1 hcx).resolve_right hxk)
  kept x hx hcx := by
    rw [setInode_self]
    show d.addrs x = _
    rw [hc, not_or] at hcx
    rw [hd, if_neg hcx.2]
    exact h.kept x hx hcx.1
  bit := h.bit

/-- Another field of the inode changes. -/
lemma setMeta (h : Trunc s₀ ip gone clear s) {d : Dinode} (hd : d.addrs = (s.icache ip).d.addrs) :
    Trunc s₀ ip gone clear (s.setInode ip { s.icache ip with d := d }) where
  sb := h.sb
  data := h.data
  file := h.file
  proc := h.proc
  dinode := h.dinode
  other jp hj := (setInode_ne hj).trans (h.other jp hj)
  inum := by rw [setInode_self, h.inum]
  ref := by rw [setInode_self, h.ref]
  cleared x hx hcx := by
    rw [setInode_self]
    show d.addrs x = 0
    rw [hd, h.cleared x hx hcx]
  kept x hx hcx := by
    rw [setInode_self]
    show d.addrs x = _
    rw [hd, h.kept x hx hcx]
  bit := h.bit

lemma update (h : Trunc s₀ ip gone clear s) {d : Dinode} : Trunc s₀ ip gone clear (s.setDinode (s.icache ip).inum d) := by
  refine { h with dinode := fun i hi => ?_ }
  rw [← h.inum] at hi
  exact (if_neg hi).trans (h.dinode i (by rwa [h.inum] at hi))

lemma marked (h : Trunc s₀ ip gone clear s) (hb : Blocks strong dirty s₀) {x : Place} (hx : ¬ gone x)
    (hold : hold (view s₀) s₀.data ((s₀.icache ip).inum, x) = some b) : s.bit b = true := by
  refine (h.bit b).2 ⟨hb.owns.marked _ b hold, fun y hy hyb => hx ?_⟩
  have := hb.owns.once _ _ b hyb hold
  rwa [← (Prod.mk.inj this).2]

/-- The block of a place is given back. -/
lemma free (h : Trunc s₀ ip gone clear s) {x : Place}
    (hold : hold (view s₀) s₀.data ((s₀.icache ip).inum, x) = some b) (hg : ∀ y, gone' y ↔ gone y ∨ y = x) :
    Trunc s₀ ip gone' clear (s.setBit b false) := by
  refine { h with bit := fun c => ?_ }
  show (if c = b then false else s.bit c) = true ↔ _
  split_ifs with hc
  · simp only [false_iff, not_and]
    intro _ hall
    exact hall x ((hg x).2 (Or.inr rfl)) (hc ▸ hold)
  · rw [h.bit c]
    refine and_congr_right fun _ => ⟨fun h1 y hy => ?_, fun h1 y hy => h1 y ((hg y).2 (Or.inl hy))⟩
    rcases (hg y).1 hy with hy | rfl
    · exact h1 y hy
    · rw [hold]
      simpa using fun h => hc h.symm

end Trunc

lemma hold_slot (hu : Uniq s) (hl : Loaded s ip) (hk : k ≤ NDIRECT) :
    hold (view s) s.data ((s.icache ip).inum, .slot k) = block ((s.icache ip).d.addrs k) := by
  simp only [hold, if_pos hk, view_loaded hu hl]

lemma hold_word (hu : Uniq s) (hl : Loaded s ip) {j : ℕ} (h0 : (s.icache ip).d.addrs NDIRECT ≠ 0) (hj : j < NINDIRECT) :
    hold (view s) s.data ((s.icache ip).inum, .word j) = block ((s.data ((s.icache ip).d.addrs NDIRECT)).word j) := by
  simp only [hold, view_loaded hu hl, if_pos (And.intro h0 hj)]

/-- The places before direct block `i`, or all of these and the words before `j`. -/
def Slots (i : ℕ) : Place → Prop
  | .slot k => k < i
  | .word _ => False

def Words (j : ℕ) : Place → Prop
  | .slot k => k < NDIRECT
  | .word x => x < j

lemma safe_itruncDirect {post : Unit → State → Prop} (hb : Blocks strong dirty s₀) (hl : Loaded s₀ ip)
    (hp : ∀ s', Trunc s₀ ip (Slots NDIRECT) (· < NDIRECT) s' → post () s') (n i : ℕ) (hi : i + n = NDIRECT)
    (h : Trunc s₀ ip (Slots i) (· < i) s) : Safe strong (itruncDirect ip i n) s post := by
  induction n generalizing i s with
  | zero =>
    obtain rfl : i = NDIRECT := by omega
    exact wp_pure (hp s h)
  | succ n ih =>
    have hik : i ≤ NDIRECT := by omega
    have haddr := h.kept i hik (by omega)
    have hslot := hold_slot hb.uniq hl hik
    have hlt : ∀ x, x < i + 1 ↔ x < i ∨ x = i := fun x => by omega
    refine safe_bind (safe_inode ?_)
    split
    · rename_i h0
      rw [haddr] at h0
      refine ih (i + 1) (by omega) ?_
      have hmore : Trunc s₀ ip (Slots (i + 1)) (· < i) s := by
        refine h.more fun x => ?_
        cases x with
        | word j => simp [Slots]
        | slot k =>
          simp only [Slots, hlt k]
          refine ⟨fun hk => hk.imp id fun hk => ⟨Or.inr hk, ?_⟩, fun hk => hk.elim Or.inl And.left⟩
          rw [hk, hslot, h0]
          rfl
      refine { hmore with cleared := fun k hk hki => ?_, kept := fun k hk hki => hmore.kept k hk fun h => hki (by omega) }
      rcases (hlt k).1 hki with hki | rfl
      · exact hmore.cleared k hk hki
      · rw [haddr, h0]
    · rename_i h0
      rw [haddr] at h0 ⊢
      rw [block_eq.2 ⟨rfl, h0⟩] at hslot
      refine safe_bind (safe_bfree (h.marked hb (by simp [Slots]) hslot) fun s₁ h₁ => ?_)
      have hfree : Trunc s₀ ip (Slots (i + 1)) (· < i) s₁ := by
        refine (h.free hslot fun y => ?_).norm h₁
        cases y <;> simp [Slots, hlt]
      refine safe_bind (safe_setInode (ih (i + 1) (by omega) (hfree.clears (fun _ => rfl) hlt)))

lemma safe_itruncIndirect {post : Unit → State → Prop} (hb : Blocks strong dirty s₀) (hl : Loaded s₀ ip)
    (h0 : (s₀.icache ip).d.addrs NDIRECT ≠ 0)
    (hp : ∀ s', Trunc s₀ ip (Words NINDIRECT) (· < NDIRECT) s' → post () s') (n j : ℕ) (hj : j + n = NINDIRECT)
    (h : Trunc s₀ ip (Words j) (· < NDIRECT) s) :
    Safe strong (itruncIndirect ((s₀.icache ip).d.addrs NDIRECT) j n) s post := by
  induction n generalizing j s with
  | zero =>
    obtain rfl : j = NINDIRECT := by omega
    exact wp_pure (hp s h)
  | succ n ih =>
    have hword := hold_word hb.uniq hl h0 (j := j) (by omega)
    have hlt : ∀ x, x < j + 1 ↔ x < j ∨ x = j := fun x => by omega
    refine safe_bind (safe_look ?_)
    rw [h.data]
    split
    · rename_i hz
      refine ih (j + 1) (by omega) (h.more fun x => ?_)
      cases x with
      | slot k =>
        simp only [Words]
        tauto
      | word x =>
        simp only [Words, hlt x]
        refine ⟨fun hk => hk.imp id fun hk => ⟨Or.inr hk, ?_⟩, fun hk => hk.elim Or.inl And.left⟩
        rw [hk, hword, hz]
        rfl
    · rename_i hz
      rw [block_eq.2 ⟨rfl, hz⟩] at hword
      refine safe_bind (safe_bfree (h.marked hb (by simp [Words]) hword) fun s₁ h₁ => ?_)
      refine ih (j + 1) (by omega) ((h.free hword fun y => ?_).norm h₁)
      cases y <;> simp [Words, hlt]

lemma safe_itruncRest {post : Unit → State → Prop} (hb : Blocks strong dirty s₀) (hl : Loaded s₀ ip)
    (hp : ∀ s', Trunc s₀ ip (fun _ => True) (· ≤ NDIRECT) s' → post () s')
    (h : Trunc s₀ ip (Slots NDIRECT) (· < NDIRECT) s) : Safe strong (itruncRest ip) s post := by
  have haddr := h.kept NDIRECT le_rfl (by omega)
  have hslot := hold_slot hb.uniq hl (le_refl NDIRECT)
  have hend : ∀ {s}, Trunc s₀ ip (Words NINDIRECT) (· < NDIRECT) s →
      Trunc s₀ ip (fun x => x ≠ .slot NDIRECT) (· < NDIRECT) s := by
    intro s h
    refine h.more fun x => ?_
    cases x with
    | slot k =>
      simp only [ne_eq, Place.slot.injEq, Words, hold]
      refine ⟨fun hk => ?_, fun hk => hk.elim (fun hk => by omega) And.left⟩
      by_cases hlt : k < NDIRECT
      · exact Or.inl hlt
      · exact Or.inr ⟨hk, if_neg (by omega)⟩
    | word j =>
      simp only [ne_eq, reduceCtorEq, not_false_eq_true, Words, hold, true_and, true_iff]
      by_cases hlt : j < NINDIRECT
      · exact Or.inl hlt
      · exact Or.inr (if_neg fun h => hlt h.2)
  refine safe_bind (safe_inode ?_)
  rw [haddr]
  split
  · rename_i h0
    refine wp_pure (hp s ?_)
    have hmore : Trunc s₀ ip (fun _ => True) (· < NDIRECT) s := by
      refine h.more fun x => ⟨fun _ => ?_, fun _ => trivial⟩
      cases x with
      | slot k =>
        by_cases hlt : k < NDIRECT
        · exact Or.inl hlt
        · refine Or.inr ⟨trivial, ?_⟩
          by_cases hk : k ≤ NDIRECT
          · rw [show k = NDIRECT by omega, hslot, h0]
            rfl
          · exact if_neg hk
      | word j =>
        refine Or.inr ⟨trivial, ?_⟩
        simp only [hold, view_loaded hb.uniq hl, h0]
        simp
    refine { hmore with cleared := fun k hk _ => ?_, kept := fun k hk hkn => absurd hk hkn }
    by_cases hlt : k < NDIRECT
    · exact hmore.cleared k hk hlt
    · rw [show k = NDIRECT by omega, haddr, h0]
  · rename_i h0
    rw [block_eq.2 ⟨rfl, h0⟩] at hslot
    refine safe_bind (safe_bread fun hd => safe_bind (safe_itruncIndirect hb hl h0 (fun s₁ h₁ => ?_) NINDIRECT 0 (by omega) ?_))
    · refine safe_bind (safe_brelse fun hd' => safe_bind (safe_bfree ?_ fun s₂ h₂ => safe_setInode (hp _ ?_)))
      · exact (hend h₁).marked hb (by simp) hslot
      · have hfree : Trunc s₀ ip (fun _ => True) (· < NDIRECT) s₂ := by
          refine ((hend h₁).free hslot fun y => ?_).norm h₂
          simp [or_comm, Classical.em]
        refine hfree.clears (fun _ => rfl) fun x => by omega
    · refine (h.more fun x => ?_).norm rfl
      cases x with
      | slot k =>
        simp only [Words, Slots]
        tauto
      | word j => simp [Words, Slots]

lemma safe_itrunc {post : Unit → State → Prop} (hb : Blocks strong dirty s) (hl : Loaded s ip)
    (hp : ∀ s', Trunc s ip (fun _ => True) (· ≤ NDIRECT) s' → (s'.dinode (s'.icache ip).inum).addrs = (s'.icache ip).d.addrs →
      post () s') : Safe strong (itrunc ip) s post := by
  have hstart : Trunc s ip (Slots 0) (· < 0) s := by
    refine ⟨rfl, rfl, rfl, rfl, fun _ _ => rfl, fun _ _ => rfl, rfl, rfl, fun k _ hk => by omega, fun _ _ _ => rfl, fun c => ?_⟩
    refine ⟨fun h => ⟨h, fun x hx => ?_⟩, And.left⟩
    cases x <;> simp [Slots] at hx
  refine safe_bind (safe_itruncDirect hb hl (fun s₁ h₁ => ?_) NDIRECT 0 (by omega) hstart)
  refine safe_bind (safe_itruncRest hb hl (fun s₂ h₂ => ?_) h₁)
  refine safe_bind (safe_setInode (safe_iupdate_eq fun s₃ hs₃ => hp s₃ ?_ ?_))
  · exact (h₂.setMeta (d := { (s₂.icache ip).d with size := 0 }) rfl).update.norm hs₃
  · rw [norm_dinode hs₃, norm_icache hs₃]
    exact congrArg Dinode.addrs (if_pos rfl)

/-- The last reference to an inode without links frees it. -/
lemma safe_ifree {post : Unit → State → Prop} (h : Good strong none C (ip :: L) K s) (hl : Loaded s ip)
    (h1 : (s.icache ip).ref = 1) (hK : ∀ jp ∈ J, jp ∈ K) (hk : ip ∈ J → C.Backed L ip)
    (hp : ∀ s', Good strong none C L J s' → post () s') : Safe strong (ifree ip) s post := by
  have hb : Blocks strong none s := h.blocks.of_norm
  refine safe_bind (safe_itrunc hb hl fun s₁ h₁ hd₁ => ?_)
  refine safe_bind (safe_setInode (safe_bind (safe_iupdate_eq fun s₂ hs₂ => safe_change (fun _ h => h) (hp _ ?_))))
  have h₂ := ((h₁.setMeta (d := { (s₁.icache ip).d with type := 0 }) rfl).update (d := { (s₁.icache ip).d with type := 0 }))
  have h₂ : Trunc s ip (fun _ => True) (· ≤ NDIRECT) s₂ := h₂.norm (hs₂.trans (by rw [setInode_self]))
  -- the inode had no other holder
  have hrefs := h.refs ip
  rw [Files.refs, if_pos hl.1.1, List.count_cons_self] at hrefs
  have hrefs : C.holders ip + (L.count ip + 1) ≤ (s.icache ip).ref := hrefs
  have hno : ip ∉ J := fun hi => by
    have := hk hi
    unfold Ctx.Backed at this
    omega
  have hdin : (s₂.dinode (s.icache ip).inum).addrs = (s₁.icache ip).d.addrs := by
    rw [norm_dinode hs₂, ← h₁.inum]
    simp [State.setDinode]
  generalize hv : { s₂.icache ip with busy := false, valid := false, ref := (s₂.icache ip).ref - 1 } = v
  have hother : ∀ jp, jp ≠ ip → (s₂.setInode ip v).icache jp = s.icache jp := fun jp hj =>
    (setInode_ne hj).trans (h₂.other jp hj)
  have hblocks : Blocks strong none (s₂.setInode ip v) := by
    refine hb.freed hl (Or.inl rfl) h₂.sb h₂.data (fun c => ?_) h₂.dinode (fun k hk => ?_) hother ?_
    · rw [show (s₂.setInode ip v).bit = s₂.bit from rfl, h₂.bit c]
      simp
    · show (s₂.dinode (s.icache ip).inum).addrs k = 0
      rw [hdin]
      exact h₁.cleared k hk hk
    · rw [setInode_self, ← hv]
      exact ⟨h₂.inum, rfl⟩
  have hother : ∀ jp, jp ≠ ip → (norm (s₂.setInode ip v)).icache jp = (norm s).icache jp := hother
  refine ⟨h₂.file.trans h.file, h₂.proc.trans h.proc, hblocks.congr rfl rfl rfl rfl (fun _ => Iff.rfl) (fun _ => rfl)
    (fun _ => rfl) (fun _ => rfl), fun jp => ?_, fun jp hj => ?_, fun jp hj => ?_⟩
  · by_cases hjp : jp = ip
    · rw [hjp]
      omega
    · rw [Files.refs, hother jp hjp]
      have := h.refs jp
      rwa [List.count_cons_of_ne (Ne.symm hjp)] at this
  · have hjp : jp ≠ ip := fun he => hno (he ▸ hj)
    rw [Loaded, Live, hother jp hjp]
    exact h.locked jp (hK jp hj)
  · have hjp : jp ≠ ip := fun he => hno (he ▸ hj)
    have := h.backed jp (hK jp hj)
    rwa [Ctx.Backed, List.count_cons_of_ne (Ne.symm hjp)] at this

/-- A reference of the call is dropped. -/
lemma safe_iput {post : Unit → State → Prop} (h : Good strong none C (ip :: L) K s) (hK : ∀ jp ∈ J, jp ∈ K)
    (hk : ip ∈ J → C.Backed L ip) (hp : ∀ s', Good strong none C L J s' → post () s') : Safe strong (iput ip) s post := by
  have hl : Live s ip := h.live List.mem_cons_self
  refine safe_bind (wp_act (fun _ a s' h' => ?_) fun _ e h' => ?_)
  · split at h'
    · rename_i hlast
      split at h'
      · cases h'
      · cases h'
        refine ⟨fun x hx => absurd hx (Marks.irrefl rfl), ?_⟩
        refine safe_ifree (K := K) ?_ ⟨?_, ?_⟩ ?_ hK hk hp
        · exact h.setBusy hl true
        · exact ⟨hl.1, by rw [setInode_self]; exact hl.2⟩
        · rw [setInode_self]
          exact hlast.2.1
        · rw [setInode_self]
          exact hlast.1
    · cases h'
      refine ⟨fun x hx => absurd hx (Marks.irrefl rfl), wp_pure (hp _ ?_)⟩
      by_cases h1 : (s.icache ip).ref = 1
      · exact h.putLast h1 (by simp) hK hk
      · exact h.put h1 hK hk
  · split at h'
    · split at h'
      · cases h'
        simp [Halts]
      · cases h'
    · cases h'

lemma safe_iunlockput {post : Unit → State → Prop} (h : Good strong none C (ip :: L) K s) (hK : ∀ jp ∈ J, jp ∈ K)
    (hk : ip ∈ J → C.Backed L ip) (hp : ∀ s', Good strong none C L J s' → post () s') : Safe strong (iunlockput ip) s post :=
  safe_bind (safe_iunlock h (h.live List.mem_cons_self) fun _ h₁ => safe_iput h₁ hK hk hp)

end Files

end Os132

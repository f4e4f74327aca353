import Os132.Files.Calls
import Os132.Lib.Owns

/-!
# Which inode holds which block

An inode as the file system sees it is its copy in the inode cache, if that is in use and valid, and
the one on disk otherwise. The places that hold blocks are the entries of `addrs` and those of the
indirect blocks. `Blocks` ties them to the bitmap; `At` adds the references to the inode cache.
-/

namespace Os132

namespace Files

/-- A place in an inode: an entry of `addrs`, or one of the indirect block. -/
inductive Place where
  | slot (k : ℕ)
  | word (j : ℕ)
  deriving DecidableEq

/-- The block with an address; 0 stands for none. -/
def block (a : ℕ) : Option ℕ := if a = 0 then none else some a

lemma block_eq {a b : ℕ} : block a = some b ↔ a = b ∧ b ≠ 0 := by
  unfold block
  split_ifs with h
  · simp only [false_iff, not_and, not_not]
    omega
  · simp only [Option.some.injEq]
    omega

/-- What the places of all inodes hold. -/
def hold (v : ℕ → Dinode) (data : ℕ → Block) : ℕ × Place → Option ℕ
  | (i, .slot k) => if k ≤ NDIRECT then block ((v i).addrs k) else none
  | (i, .word j) =>
    if (v i).addrs NDIRECT ≠ 0 ∧ j < NINDIRECT then block ((data ((v i).addrs NDIRECT)).word j) else none

/-- A place in the inode cache that is in use. -/
def Live (s : State) (ip : ℕ) : Prop := ip < NINODE ∧ 0 < (s.icache ip).ref

/-- A place in the inode cache with a valid copy. -/
def Loaded (s : State) (ip : ℕ) : Prop := Live s ip ∧ (s.icache ip).valid = true

/-- What a free inode on disk contains does not matter. -/
def Dinode.used (d : Dinode) : Dinode := if d.type = 0 then Dinode.zero else d

lemma Dinode.used_of_type {d : Dinode} (h : d.type ≠ 0) : d.used = d := if_neg h

lemma Dinode.used_addrs {d : Dinode} {k : ℕ} (h : d.addrs k = 0) : d.used.addrs k = 0 := by
  unfold used
  split_ifs
  · rfl
  · exact h

/-- Inode `i` as the file system sees it. -/
def view (s : State) (i : ℕ) : Dinode :=
  match (List.range NINODE).find? fun ip => 0 < (s.icache ip).ref ∧ (s.icache ip).inum = i ∧ (s.icache ip).valid = true with
  | some ip => (s.icache ip).d
  | none => (s.dinode i).used

/-- The first sector behind the boot block, the superblock, the inodes and the bitmap. -/
def dataStart (sb : Super) : ℕ := sb.ninodes / IPB + 3 + (sb.size / BPB + 1)

/-- The first sector of the log. -/
def dataEnd (sb : Super) : ℕ := sb.size - sb.nlog

def DataArea (sb : Super) (b : ℕ) : Prop := dataStart sb ≤ b ∧ b < dataEnd sb

instance (sb : Super) (b : ℕ) : Decidable (DataArea sb b) := inferInstanceAs (Decidable (_ ∧ _))

/-- The places of the inodes hold different blocks, none of them with inodes or bitmap, and these are
marked. If `strong` then nothing else in the data area is marked, and the disk agrees with the cache except for inode `dirty`;
otherwise it may lack blocks. -/
structure Blocks (strong : Prop) (dirty : Option ℕ) (s : State) : Prop where
  uniq : ∀ ip jp, Live s ip → Live s jp → (s.icache ip).inum = (s.icache jp).inum → ip = jp
  disk : ∀ ip k, Loaded s ip → k ≤ NDIRECT →
    (s.dinode (s.icache ip).inum).used.addrs k = (s.icache ip).d.addrs k ∨
      (strong → dirty = some ip) ∧ (s.dinode (s.icache ip).inum).used.addrs k = 0
  typed : ∀ ip, Loaded s ip → (s.icache ip).d.type ≠ 0
  owns : SoleOwner (hold (view s) s.data) (s.bit · = true) (dataStart s.sb ≤ ·)
  head : ∀ b, b < dataStart s.sb → s.bit b = true
  small : s.sb.size < 2 ^ 32
  exact : strong → Exact (hold (view s) s.data) (s.bit · = true) (DataArea s.sb)

variable {strong : Prop} {dirty : Option ℕ} {s s' : State} {ip jp i k b : ℕ}

/-! ### The view -/

lemma view_cases (s : State) (i : ℕ) :
    (∃ ip, Loaded s ip ∧ (s.icache ip).inum = i ∧ view s i = (s.icache ip).d) ∨
      (∀ ip, Loaded s ip → (s.icache ip).inum ≠ i) ∧ view s i = (s.dinode i).used := by
  unfold view
  cases hf : (List.range NINODE).find? fun ip =>
      0 < (s.icache ip).ref ∧ (s.icache ip).inum = i ∧ (s.icache ip).valid = true with
  | some ip =>
    have h1 := List.find?_some hf
    have h2 := List.mem_range.mp (List.mem_of_find?_eq_some hf)
    simp only [decide_eq_true_eq] at h1
    exact Or.inl ⟨ip, ⟨⟨h2, h1.1⟩, h1.2.2⟩, h1.2.1, rfl⟩
  | none =>
    refine Or.inr ⟨fun ip hl hi => ?_, rfl⟩
    have := List.find?_eq_none.mp hf ip (List.mem_range.mpr hl.1.1)
    simp only [decide_eq_true_eq] at this
    exact this ⟨hl.1.2, hi, hl.2⟩

/-- The places in use hold different inodes. -/
def Uniq (s : State) : Prop :=
  ∀ ip jp, Live s ip → Live s jp → (s.icache ip).inum = (s.icache jp).inum → ip = jp

lemma view_loaded (hu : Uniq s) (h : Loaded s ip) : view s (s.icache ip).inum = (s.icache ip).d := by
  rcases view_cases s (s.icache ip).inum with ⟨jp, hl, hi, hv⟩ | ⟨hn, -⟩
  · rw [hv, hu jp ip hl.1 h.1 hi]
  · exact absurd rfl (hn ip h)

lemma view_unloaded (h : ∀ ip, Loaded s ip → (s.icache ip).inum ≠ i) : view s i = (s.dinode i).used := by
  rcases view_cases s i with ⟨jp, hl, hi, -⟩ | ⟨-, hv⟩
  · exact absurd hi (h jp hl)
  · exact hv

lemma view_congr (hu : Uniq s') (h1 : ∀ ip, Loaded s ip → (s.icache ip).inum = i →
      Loaded s' ip ∧ (s'.icache ip).inum = i ∧ (s'.icache ip).d = (s.icache ip).d)
    (h2 : (∀ ip, Loaded s ip → (s.icache ip).inum ≠ i) → view s' i = (s.dinode i).used) : view s' i = view s i := by
  rcases view_cases s i with ⟨ip, hl, hi, hv⟩ | ⟨hn, hv⟩
  · obtain ⟨hl', hi', hd⟩ := h1 ip hl hi
    rw [hv, ← hd, ← hi']
    exact view_loaded hu hl'
  · rw [hv]
    exact h2 hn

lemma hold_congr {v v' : ℕ → Dinode} {data : ℕ → Block} (h : ∀ i k, k ≤ NDIRECT → (v' i).addrs k = (v i).addrs k) :
    hold v' data = hold v data := by
  funext x
  obtain ⟨i, k | j⟩ := x
  · simp only [hold]
    split_ifs with hk
    · rw [h i k hk]
    · rfl
  · simp only [hold, h i NDIRECT le_rfl]

/-- Places that hold what they held, or nothing. -/
lemma hold_sub {v v' : ℕ → Dinode} {data : ℕ → Block}
    (h : ∀ i k, k ≤ NDIRECT → (v' i).addrs k = (v i).addrs k ∨ (v' i).addrs k = 0) {x : ℕ × Place}
    (hx : hold v' data x = some b) : hold v data x = some b := by
  obtain ⟨i, k | j⟩ := x
  · simp only [hold] at hx ⊢
    split_ifs at hx ⊢ with hk
    rcases h i k hk with h | h
    · rwa [← h]
    · rw [h] at hx
      simp [block] at hx
  · simp only [hold] at hx ⊢
    split_ifs at hx with hj
    rcases h i NDIRECT le_rfl with h | h
    · rw [if_pos (h ▸ hj)]
      rwa [← h]
    · exact absurd h hj.1

lemma word_zero (j : ℕ) : Block.word (fun _ => 0) j = 0 := by
  simp [Block.word]

/-- A new block, whose words are zero, is put in an entry of `addrs` that was empty. -/
lemma hold_setSlot {v v' : ℕ → Dinode} {data data' : ℕ → Block} (hk : k ≤ NDIRECT) (h0 : b ≠ 0) (hz : (v i).addrs k = 0)
    (hv : ∀ j x, (v' j).addrs x = if j = i ∧ x = k then b else (v j).addrs x) (hno : ∀ j, (v j).addrs NDIRECT ≠ b)
    (hb : data' b = fun _ => 0) (hd : ∀ c, c ≠ b → data' c = data c) :
    hold v data (i, .slot k) = none ∧ hold v' data' (i, .slot k) = some b ∧
      ∀ y, y ≠ (i, .slot k) → hold v' data' y = hold v data y := by
  refine ⟨?_, ?_, ?_⟩
  · simp [hold, hz, block]
  · simp only [hold, hv, if_pos hk, and_self, if_true]
    exact block_eq.2 ⟨rfl, h0⟩
  · rintro ⟨j, x⟩ hy
    cases x with
    | slot x =>
      have hne : ¬ (j = i ∧ x = k) := fun h => hy (by rw [h.1, h.2])
      simp only [hold, hv, if_neg hne]
    | word x =>
      by_cases h : j = i ∧ NDIRECT = k
      · -- a new indirect block is empty
        obtain ⟨rfl, rfl⟩ := h
        simp [hold, hv, hz, hb, word_zero, block]
      · simp only [hold, hv, if_neg h, hd _ (hno j)]
lemma word_setWord {blk : Block} {i j v : ℕ} (hv : v < 2 ^ 32) :
    (blk.setWord i v).word j = if j = i then v else blk.word j := by
  unfold Block.word Block.setWord
  by_cases hj : j = i
  · subst hj
    have h1 : ¬ 4 * j + 1 = 4 * j := by omega
    have h2 : ¬ 4 * j + 2 = 4 * j := by omega
    have h3 : ¬ 4 * j + 3 = 4 * j := by omega
    have h4 : ¬ 4 * j + 2 = 4 * j + 1 := by omega
    have h5 : ¬ 4 * j + 3 = 4 * j + 1 := by omega
    have h6 : ¬ 4 * j + 3 = 4 * j + 2 := by omega
    simp only [if_true, if_neg h1, if_neg h2, if_neg h3, if_neg h4, if_neg h5, if_neg h6, UInt8.toNat_ofNat']
    omega
  · have hne : ∀ a b, a < 4 → b < 4 → ¬ 4 * j + a = 4 * i + b := by
      intro a b ha hb h
      omega
    have e0 : ∀ b, b < 4 → ¬ 4 * j = 4 * i + b := fun b hb => hne 0 b (by omega) hb
    have e1 : ∀ a, a < 4 → ¬ 4 * j + a = 4 * i := fun a ha => hne a 0 ha (by omega)
    have e2 : ¬ 4 * j = 4 * i := by omega
    simp [hj, e2, e0 1, e0 2, e0 3, e1 1, e1 2, e1 3, hne 2 1, hne 3 1, hne 3 2]

/-- A new block is put in an entry of the indirect block `a` of inode `i` that was empty. -/
lemma hold_putWord {v : ℕ → Dinode} {data data' : ℕ → Block} {a j : ℕ} (hj : j < NINDIRECT) (h0 : b ≠ 0) (hb : b < 2 ^ 32)
    (ha : (v i).addrs NDIRECT = a) (ha0 : a ≠ 0) (hone : ∀ i', (v i').addrs NDIRECT = a → i' = i)
    (hno : ∀ i', (v i').addrs NDIRECT ≠ b) (hz : (data a).word j = 0) (hda : data' a = (data a).setWord j b)
    (hd : ∀ c, c ≠ a → c ≠ b → data' c = data c) :
    hold v data (i, .word j) = none ∧ hold v data' (i, .word j) = some b ∧
      ∀ y, y ≠ (i, .word j) → hold v data' y = hold v data y := by
  refine ⟨?_, ?_, ?_⟩
  · simp [hold, ha, hz, block]
  · simp only [hold, ha, hda, word_setWord hb, if_true]
    rw [if_pos ⟨ha0, hj⟩]
    exact block_eq.2 ⟨rfl, h0⟩
  · rintro ⟨i', k | j'⟩ hy
    · rfl
    · simp only [hold]
      by_cases hi : (v i').addrs NDIRECT = a
      · have hjj : j' ≠ j := by
          rintro rfl
          exact hy (by rw [hone i' hi])
        rw [hi, hda, word_setWord hb, if_neg hjj]
      · rw [hd _ hi (hno i')]

/-! ### Changes of the inode cache -/

namespace Blocks

/-- The blocks depend on what is cached, not on locks and counts. -/
lemma congr (h : Blocks strong dirty s) (hsb : s'.sb = s.sb) (hd : s'.dinode = s.dinode) (hb : s'.bit = s.bit)
    (hda : s'.data = s.data) (hl : ∀ ip, Live s' ip ↔ Live s ip) (hi : ∀ ip, (s'.icache ip).inum = (s.icache ip).inum)
    (hv : ∀ ip, (s'.icache ip).valid = (s.icache ip).valid) (hc : ∀ ip, (s'.icache ip).d = (s.icache ip).d) :
    Blocks strong dirty s' := by
  have hl' : ∀ ip, Loaded s' ip ↔ Loaded s ip := fun ip => by rw [Loaded, Loaded, hl, hv]
  have hu : Uniq s' := fun ip jp h1 h2 h3 => h.uniq ip jp ((hl ip).1 h1) ((hl jp).1 h2) (by rwa [hi, hi] at h3)
  have hview : view s' = view s := by
    funext i
    refine view_congr hu (fun ip h1 h2 => ⟨(hl' ip).2 h1, (hi ip).trans h2, hc ip⟩) fun hn => ?_
    rw [view_unloaded fun ip h1 => by rw [hi]; exact hn ip ((hl' ip).1 h1), hd]
  refine ⟨hu, fun ip k h1 => ?_, fun ip h1 => ?_, ?_, ?_, ?_, fun hs => ?_⟩
  · rw [hi, hc, hd]
    exact h.disk ip k ((hl' ip).1 h1)
  · rw [hc]
    exact h.typed ip ((hl' ip).1 h1)
  · rw [hview, hda, hb, hsb]
    exact h.owns
  · rw [hsb, hb]
    exact h.head
  · rw [hsb]
    exact h.small
  · rw [hview, hda, hb, hsb]
    exact h.exact hs

/-- A place that was not in use gets an inode that is not cached, without its contents. -/
lemma fresh (h : Blocks strong dirty s) {inum : ℕ} {v : Inode} (hr : (s.icache ip).ref = 0)
    (hn : ∀ jp, Live s jp → (s.icache jp).inum ≠ inum) (hv : v.inum = inum ∧ v.valid = false) :
    Blocks strong dirty (s.setInode ip v) := by
  have hne : ∀ jp, Live s jp → jp ≠ ip := by
    rintro jp hj rfl
    exact absurd hj.2 (by omega)
  have hother : ∀ jp, jp ≠ ip → (s.setInode ip v).icache jp = s.icache jp := fun jp hj => if_neg hj
  have hself : (s.setInode ip v).icache ip = v := if_pos rfl
  have hl : ∀ jp, Loaded (s.setInode ip v) jp ↔ Loaded s jp := by
    intro jp
    by_cases hj : jp = ip
    · subst hj
      refine ⟨fun h => ?_, fun h => absurd rfl (hne _ h.1)⟩
      have := h.2
      rw [hself, hv.2] at this
      exact Bool.noConfusion this
    · rw [Loaded, Loaded, Live, Live, hother jp hj]
  have hu : Uniq (s.setInode ip v) := by
    intro jp kp hj hk hjk
    by_cases h1 : jp = ip <;> by_cases h2 : kp = ip
    · rw [h1, h2]
    · rw [Live, hother kp h2] at hk
      rw [h1, hself, hother kp h2, hv.1] at hjk
      exact absurd hjk.symm (hn kp hk)
    · rw [Live, hother jp h1] at hj
      rw [h2, hself, hother jp h1, hv.1] at hjk
      exact absurd hjk (hn jp hj)
    · rw [Live, hother jp h1] at hj
      rw [Live, hother kp h2] at hk
      rw [hother jp h1, hother kp h2] at hjk
      exact h.uniq jp kp hj hk hjk
  have heq : ∀ jp, Loaded s jp → (s.setInode ip v).icache jp = s.icache jp := fun jp hj => hother jp (hne jp hj.1)
  have hview : view (s.setInode ip v) = view s := by
    funext i
    refine view_congr hu (fun jp h1 h2 => ⟨(hl jp).2 h1, by rwa [heq jp h1], by rw [heq jp h1]⟩) fun hno => ?_
    rw [view_unloaded fun jp h1 => ?_]
    · rfl
    · have h1 := (hl jp).1 h1
      rw [heq jp h1]
      exact hno jp h1
  refine ⟨hu, fun jp k h1 => ?_, fun jp h1 => ?_, ?_, h.head, h.small, fun hs => ?_⟩
  · have h1 := (hl jp).1 h1
    rw [heq jp h1]
    exact h.disk jp k h1
  · have h1 := (hl jp).1 h1
    rw [heq jp h1]
    exact h.typed jp h1
  · rw [hview]
    exact h.owns
  · rw [hview]
    exact h.exact hs

/-- The view after a change of the copy at a place that is in use. -/
lemma view_setInode (hu : Uniq s) {v : Inode} (hl : Live s ip) (hv : v.inum = (s.icache ip).inum ∧ 0 < v.ref) :
    Uniq (s.setInode ip v) ∧ (∀ i, i ≠ v.inum → view (s.setInode ip v) i = view s i) ∧
      (v.valid = true → view (s.setInode ip v) v.inum = v.d) ∧
      (v.valid = false → view (s.setInode ip v) v.inum = (s.dinode v.inum).used) := by
  have hother : ∀ jp, jp ≠ ip → (s.setInode ip v).icache jp = s.icache jp := fun jp hj => if_neg hj
  have hself : (s.setInode ip v).icache ip = v := if_pos rfl
  have hin : ∀ jp, ((s.setInode ip v).icache jp).inum = (s.icache jp).inum := by
    intro jp
    by_cases hj : jp = ip
    · rw [hj, hself, hv.1]
    · rw [hother jp hj]
  have hlive : ∀ jp, Live (s.setInode ip v) jp → Live s jp := by
    intro jp h
    by_cases hj : jp = ip
    · exact hj ▸ hl
    · rwa [Live, hother jp hj] at h
  have hu' : Uniq (s.setInode ip v) := fun jp kp h1 h2 h3 => hu jp kp (hlive jp h1) (hlive kp h2) (by rwa [hin, hin] at h3)
  have hl' : Live (s.setInode ip v) ip := ⟨hl.1, by rw [hself]; exact hv.2⟩
  refine ⟨hu', fun i hi => ?_, fun hval => ?_, fun hval => ?_⟩
  · have hne : ∀ jp, (s.icache jp).inum = i → jp ≠ ip := by
      rintro jp h rfl
      exact hi (h.symm.trans hv.1.symm)
    refine view_congr hu' (fun jp h1 h2 => ?_) fun hno => ?_
    · rw [Loaded, Live, hother jp (hne jp h2)]
      exact ⟨h1, h2, rfl⟩
    · refine view_unloaded fun jp h1 h2 => ?_
      rw [hin] at h2
      rw [Loaded, Live, hother jp (hne jp h2)] at h1
      exact hno jp h1 h2
  · have hlo : Loaded (s.setInode ip v) ip := ⟨hl', by rw [hself]; exact hval⟩
    have := view_loaded hu' hlo
    rwa [hself] at this
  · refine view_unloaded fun jp h1 h2 => ?_
    rw [hin, hv.1] at h2
    have := hu jp ip (hlive jp h1.1) hl h2
    have h1 := h1.2
    rw [this, hself, hval] at h1
    exact Bool.noConfusion h1

/-- The copy of an inode changes other than in its addresses, or is read from disk. -/
lemma copy (h : Blocks strong dirty s) {v : Inode} (hl : Live s ip) (hv : v.inum = (s.icache ip).inum ∧ 0 < v.ref)
    (hval : v.valid = true) (ht : v.d.type ≠ 0)
    (ha : ∀ k, k ≤ NDIRECT → v.d.addrs k = (view s v.inum).addrs k) : Blocks strong dirty (s.setInode ip v) := by
  obtain ⟨hu, hview, hself, -⟩ := view_setInode h.uniq hl hv
  have hself := hself hval
  have hother : ∀ jp, jp ≠ ip → (s.setInode ip v).icache jp = s.icache jp := fun jp hj => if_neg hj
  have hic : (s.setInode ip v).icache ip = v := if_pos rfl
  have hhold : hold (view (s.setInode ip v)) s.data = hold (view s) s.data := by
    refine hold_congr fun i k hk => ?_
    by_cases hi : i = v.inum
    · rw [hi, hself, ha k hk]
    · rw [hview i hi]
  have hlo : ∀ jp, jp ≠ ip → (Loaded (s.setInode ip v) jp ↔ Loaded s jp) := by
    intro jp hj
    rw [Loaded, Loaded, Live, Live, hother jp hj]
  refine ⟨hu, fun jp k h1 hk => ?_, fun jp h1 => ?_, ?_, h.head, h.small, fun hs => ?_⟩
  · by_cases hj : jp = ip
    · subst hj
      rw [hic, ha k hk]
      show (s.dinode v.inum).used.addrs k = _ ∨ _ ∧ (s.dinode v.inum).used.addrs k = 0
      by_cases hlo : Loaded s jp
      · rw [hv.1, view_loaded h.uniq hlo]
        exact h.disk jp k hlo hk
      · left
        rw [view_unloaded]
        intro kp hkp hin
        rw [hv.1] at hin
        exact hlo (h.uniq kp jp hkp.1 hl hin ▸ hkp)
    · rw [hother jp hj]
      exact h.disk jp k ((hlo jp hj).1 h1) hk
  · by_cases hj : jp = ip
    · rw [hj, hic]
      exact ht
    · rw [hother jp hj]
      exact h.typed jp ((hlo jp hj).1 h1)
  · show SoleOwner (hold (view (s.setInode ip v)) s.data) _ _
    rw [hhold]
    exact h.owns
  · show Exact (hold (view (s.setInode ip v)) s.data) _ _
    rw [hhold]
    exact h.exact hs

/-- The last reference to a place is dropped. -/
lemma evict (h : Blocks strong dirty s) {v : Inode} (hd : strong → dirty ≠ some ip) (hv : v.inum = (s.icache ip).inum)
    (hr : v.ref = 0) : Blocks strong dirty (s.setInode ip v) := by
  have hother : ∀ jp, jp ≠ ip → (s.setInode ip v).icache jp = s.icache jp := fun jp hj => if_neg hj
  have hic : (s.setInode ip v).icache ip = v := if_pos rfl
  have hlive : ∀ jp, Live (s.setInode ip v) jp → jp ≠ ip ∧ Live s jp := by
    intro jp h1
    have hj : jp ≠ ip := by
      rintro rfl
      rw [Live, hic, hr] at h1
      exact absurd h1.2 (by omega)
    rw [Live, hother jp hj] at h1
    exact ⟨hj, h1⟩
  have hu : Uniq (s.setInode ip v) := by
    intro jp kp h1 h2 h3
    obtain ⟨hj, h1⟩ := hlive jp h1
    obtain ⟨hk, h2⟩ := hlive kp h2
    rw [hother jp hj, hother kp hk] at h3
    exact h.uniq jp kp h1 h2 h3
  have hlo : ∀ jp, Loaded (s.setInode ip v) jp → jp ≠ ip ∧ Loaded s jp := by
    intro jp h1
    obtain ⟨hj, h2⟩ := hlive jp h1.1
    refine ⟨hj, h2, ?_⟩
    have := h1.2
    rwa [hother jp hj] at this
  -- an inode loses its copy, or looks as before
  have hview : ∀ i, view (s.setInode ip v) i = view s i ∨
      (∃ k, Loaded s k ∧ k = ip ∧ (s.icache k).inum = i) ∧ view (s.setInode ip v) i = (s.dinode i).used := by
    intro i
    rcases view_cases (s.setInode ip v) i with ⟨jp, h1, h2, h3⟩ | ⟨hno, h3⟩
    · obtain ⟨hj, h4⟩ := hlo jp h1
      rw [hother jp hj] at h2 h3
      left
      rw [h3, ← h2, view_loaded h.uniq h4]
    · by_cases hc : Loaded s ip ∧ (s.icache ip).inum = i
      · exact Or.inr ⟨⟨ip, hc.1, rfl, hc.2⟩, h3⟩
      · left
        rw [h3]
        symm
        refine view_unloaded fun jp h1 h2 => ?_
        by_cases hj : jp = ip
        · exact hc ⟨hj ▸ h1, hj ▸ h2⟩
        · refine hno jp ?_ ?_
          · rwa [Loaded, Live, hother jp hj]
          · rwa [hother jp hj]
  have haddr : ∀ i k, k ≤ NDIRECT → (view (s.setInode ip v) i).addrs k = (view s i).addrs k ∨
      ¬ strong ∧ (view (s.setInode ip v) i).addrs k = 0 := by
    intro i k hk
    rcases hview i with h1 | ⟨⟨jp, h2, rfl, rfl⟩, h1⟩
    · exact Or.inl (by rw [h1])
    · rw [h1, view_loaded h.uniq h2]
      exact (h.disk jp k h2 hk).imp id fun h3 => ⟨fun hs => hd hs (h3.1 hs), h3.2⟩
  refine ⟨hu, fun jp k h1 hk => ?_, fun jp h1 => ?_, ?_, h.head, h.small, fun hs => ?_⟩
  · obtain ⟨hj, h1⟩ := hlo jp h1
    rw [hother jp hj]
    exact h.disk jp k h1 hk
  · obtain ⟨hj, h1⟩ := hlo jp h1
    rw [hother jp hj]
    exact h.typed jp h1
  · exact h.owns.sub fun x b hx => hold_sub (fun i k hk => (haddr i k hk).imp id fun h => h.2) hx
  · show Exact (hold (view (s.setInode ip v)) s.data) _ _
    rw [hold_congr fun i k hk => (haddr i k hk).resolve_right fun h => h.1 hs]
    exact h.exact hs

/-- The inode on disk is brought up to date. -/
lemma update (h : Blocks strong dirty s) (hl : Loaded s ip) (hd : dirty = none ∨ dirty = some ip) :
    Blocks strong none (s.setDinode (s.icache ip).inum (s.icache ip).d) := by
  have hset : ∀ i, (s.setDinode (s.icache ip).inum (s.icache ip).d).dinode i =
      if i = (s.icache ip).inum then (s.icache ip).d else s.dinode i := fun i => rfl
  have hu : Uniq (s.setDinode (s.icache ip).inum (s.icache ip).d) := h.uniq
  have hview : view (s.setDinode (s.icache ip).inum (s.icache ip).d) = view s := by
    funext i
    refine view_congr hu (fun jp h1 h2 => ⟨h1, h2, rfl⟩) fun hno => ?_
    rw [view_unloaded (s := s.setDinode (s.icache ip).inum (s.icache ip).d) fun jp h1 => hno jp h1, hset,
      if_neg (Ne.symm (hno ip hl))]
  refine ⟨hu, fun jp k h1 hk => ?_, h.typed, ?_, h.head, h.small, fun hs => ?_⟩
  · show ((s.setDinode (s.icache ip).inum (s.icache ip).d).dinode (s.icache jp).inum).used.addrs k = (s.icache jp).d.addrs k ∨
      _ ∧ ((s.setDinode (s.icache ip).inum (s.icache ip).d).dinode (s.icache jp).inum).used.addrs k = 0
    by_cases hj : jp = ip
    · left
      rw [hset, hj, if_pos rfl, Dinode.used_of_type (h.typed ip hl)]
    · have hne : (s.icache jp).inum ≠ (s.icache ip).inum := fun hi => hj (h.uniq jp ip h1.1 hl.1 hi)
      rw [hset, if_neg hne]
      refine (h.disk jp k h1 hk).imp id fun h2 => ⟨fun hs => ?_, h2.2⟩
      have := h2.1 hs
      rcases hd with hd | hd <;> rw [hd] at this
      · simp at this
      · exact absurd (Option.some.inj this).symm hj
  · rw [hview]
    exact h.owns
  · rw [hview]
    exact h.exact hs

/-! ### Changes of the blocks -/

/-- A free inode is allocated on disk. -/
lemma create (h : Blocks strong dirty s) {inum : ℕ} {d : Dinode} (ht : (s.dinode inum).type = 0)
    (hz : ∀ k, k ≤ NDIRECT → d.addrs k = 0) : Blocks strong dirty (s.setDinode inum d) := by
  have hset : ∀ i, (s.setDinode inum d).dinode i = if i = inum then d else s.dinode i := fun i => rfl
  have hu : Uniq (s.setDinode inum d) := h.uniq
  have hzero : ∀ k, (s.dinode inum).used.addrs k = 0 := fun k => by
    rw [Dinode.used, if_pos ht]
    rfl
  have haddr : ∀ i k, k ≤ NDIRECT → ((s.setDinode inum d).dinode i).used.addrs k = (s.dinode i).used.addrs k := by
    intro i k hk
    rw [hset]
    split_ifs with hi
    · rw [hi, hzero, Dinode.used_addrs (hz k hk)]
    · rfl
  have hview : ∀ i k, k ≤ NDIRECT → (view (s.setDinode inum d) i).addrs k = (view s i).addrs k := by
    intro i k hk
    rcases view_cases s i with ⟨ip, hl, hi, hv⟩ | ⟨hn, hv⟩
    · rw [hv, ← hi]
      exact congrArg (fun d : Dinode => d.addrs k) (view_loaded hu (show Loaded (s.setDinode inum d) ip from hl))
    · rw [view_unloaded (s := s.setDinode inum d) hn, hv, haddr i k hk]
  have hhold : hold (view (s.setDinode inum d)) s.data = hold (view s) s.data := hold_congr hview
  refine ⟨hu, fun jp k h1 hk => ?_, h.typed, ?_, h.head, h.small, fun hs => ?_⟩
  · rw [haddr _ k hk]
    exact h.disk jp k h1 hk
  · show SoleOwner (hold (view (s.setDinode inum d)) s.data) _ _
    rw [hhold]
    exact h.owns
  · show Exact (hold (view (s.setDinode inum d)) s.data) _ _
    rw [hhold]
    exact h.exact hs

/-- The contents of a block that is not an indirect block. -/
lemma write (h : Blocks strong dirty s) (hb : ∀ i, (view s i).addrs NDIRECT ≠ b) (v : Block) :
    Blocks strong dirty (s.setData b v) := by
  have hview : view (s.setData b v) = view s := rfl
  have hhold : hold (view s) (s.setData b v).data = hold (view s) s.data := by
    funext x
    obtain ⟨i, k | j⟩ := x
    · rfl
    · have : (s.setData b v).data ((view s i).addrs NDIRECT) = s.data ((view s i).addrs NDIRECT) := if_neg (hb i)
      simp only [hold, this]
  refine ⟨h.uniq, h.disk, h.typed, ?_, h.head, h.small, fun hs => ?_⟩
  · rw [hview, hhold]
    exact h.owns
  · rw [hview, hhold]
    exact h.exact hs

lemma not_indirect (h : Blocks strong dirty s) {x : ℕ × Place} (hx : hold (view s) s.data x = some b)
    (hne : ∀ i, x ≠ (i, .slot NDIRECT)) (i : ℕ) : (view s i).addrs NDIRECT ≠ b := by
  intro hb
  have h0 : b ≠ 0 := by
    rintro rfl
    obtain ⟨i, k | j⟩ := x <;> simp only [hold] at hx <;> split_ifs at hx <;> exact absurd rfl (block_eq.1 hx).2
  refine hne i (h.owns.once _ _ b hx ?_)
  simp only [hold, le_refl, if_true]
  exact block_eq.2 ⟨hb, h0⟩

lemma not_held (h : Blocks strong dirty s) (hb : s.bit b = false) (x : ℕ × Place) : hold (view s) s.data x ≠ some b := by
  intro hx
  have := h.owns.marked x b hx
  rw [hb] at this
  exact Bool.noConfusion this

lemma not_indirect_of_free (h : Blocks strong dirty s) (hb : s.bit b = false) (h0 : b ≠ 0) (i : ℕ) :
    (view s i).addrs NDIRECT ≠ b := by
  intro hi
  refine h.not_held hb (i, .slot NDIRECT) ?_
  simp only [hold, le_refl, if_true]
  exact block_eq.2 ⟨hi, h0⟩

lemma area_pos (hb : DataArea s.sb b) : b ≠ 0 := by
  have h1 := hb.1
  rintro rfl
  have : 0 < dataStart s.sb := by
    unfold dataStart
    exact Nat.add_pos_right _ (Nat.succ_pos _)
  omega

/-- The state after `balloc` of block `b`. -/
def allocated (s : State) (b : ℕ) : State := (s.setBit b true).setData b fun _ => 0

lemma bit_allocated (c : ℕ) : (allocated s b).bit c = true ↔ s.bit c = true ∨ c = b := by
  show (if c = b then true else s.bit c) = true ↔ _
  split_ifs with h <;> simp [h]

/-- A new block is put in an entry of `addrs`. -/
lemma addSlot (h : Blocks strong dirty s) (hl : Loaded s ip) (hd : dirty = none ∨ dirty = some ip) (hb : s.bit b = false)
    (ha : DataArea s.sb b) (hk : k ≤ NDIRECT) (hz : (s.icache ip).d.addrs k = 0) :
    Blocks strong (some ip) ((allocated s b).setInode ip { s.icache ip with
      d := { (s.icache ip).d with addrs := fun x => if x = k then b else (s.icache ip).d.addrs x } }) := by
  have h0 : b ≠ 0 := area_pos ha
  generalize hs' : (allocated s b).setInode ip { s.icache ip with
      d := { (s.icache ip).d with addrs := fun x => if x = k then b else (s.icache ip).d.addrs x } } = s'
  have hother : ∀ jp, jp ≠ ip → s'.icache jp = s.icache jp := fun jp hj => by rw [← hs']; exact if_neg hj
  have hself : s'.icache ip = { s.icache ip with
      d := { (s.icache ip).d with addrs := fun x => if x = k then b else (s.icache ip).d.addrs x } } := by
    rw [← hs']
    exact if_pos rfl
  have hdin : s'.dinode = s.dinode := by rw [← hs']; rfl
  have hdata : s'.data = (allocated s b).data := by rw [← hs']; rfl
  have hbit : ∀ c, s'.bit c = true ↔ s.bit c = true ∨ c = b := fun c => by rw [← hs']; exact bit_allocated c
  have hsb : s'.sb = s.sb := by rw [← hs']; rfl
  have hu0 : Uniq (allocated s b) := h.uniq
  have hl0 : Live (allocated s b) ip := hl.1
  obtain ⟨hu, hview, hv, -⟩ := view_setInode hu0 hl0 (v := { s.icache ip with
      d := { (s.icache ip).d with addrs := fun x => if x = k then b else (s.icache ip).d.addrs x } }) ⟨rfl, hl.1.2⟩
  rw [hs'] at hu hview hv
  have hv := hv hl.2
  have hview : ∀ i, i ≠ (s.icache ip).inum → view s' i = view s i := hview
  have hvs := view_loaded h.uniq hl
  -- the addresses of the inode
  have haddr : ∀ x, (view s' (s.icache ip).inum).addrs x = if x = k then b else (view s (s.icache ip).inum).addrs x := by
    intro x
    rw [hvs]
    exact congrArg (fun d : Dinode => d.addrs x) hv
  have hdatab : ∀ c, c ≠ b → s'.data c = s.data c := fun c hc => by rw [hdata]; exact if_neg hc
  have haddrs : ∀ j x, (view s' j).addrs x = if j = (s.icache ip).inum ∧ x = k then b else (view s j).addrs x := by
    intro j x
    by_cases hj : j = (s.icache ip).inum
    · rw [hj, haddr]
      simp
    · rw [hview j hj, if_neg fun h => hj h.1]
  obtain ⟨hnone, hnew, hsame⟩ := hold_setSlot hk h0 (hvs ▸ hz) haddrs (h.not_indirect_of_free hb h0)
    (by rw [hdata]; exact if_pos rfl) hdatab
  have hlo : ∀ jp, jp ≠ ip → Loaded s' jp → Loaded s jp := fun jp hj h1 => by rwa [Loaded, Live, hother jp hj] at h1
  refine ⟨hu, fun jp x h1 hx => ?_, fun jp h1 => ?_, ?_, ?_, ?_, fun hs => ?_⟩
  · by_cases hj : jp = ip
    · subst hj
      rw [hself, hdin]
      show (s.dinode (s.icache jp).inum).used.addrs x = (if x = k then b else (s.icache jp).d.addrs x) ∨
        (strong → some jp = some jp) ∧ (s.dinode (s.icache jp).inum).used.addrs x = 0
      split_ifs with hxk
      · refine Or.inr ⟨fun _ => rfl, ?_⟩
        rcases h.disk jp x hl hx with h2 | h2
        · rw [h2, hxk, hz]
        · exact h2.2
      · exact (h.disk jp x hl hx).imp id fun h2 => ⟨fun _ => rfl, h2.2⟩
    · rw [hother jp hj, hdin]
      refine (h.disk jp x (hlo jp hj h1) hx).imp id fun h2 => ⟨fun hs => ?_, h2.2⟩
      have := h2.1 hs
      rcases hd with hd | hd <;> rw [hd] at this
      · simp at this
      · exact absurd (Option.some.inj this).symm hj
  · by_cases hj : jp = ip
    · rw [hj, hself]
      exact h.typed ip hl
    · rw [hother jp hj]
      exact h.typed jp (hlo jp hj h1)
  · rw [hsb]
    exact h.owns.put (by simp [hb]) ha.1 hnew hsame fun c hc => (hbit c).2 hc
  · intro c hc
    rw [hsb] at hc
    exact (hbit c).2 (Or.inl (h.head c hc))
  · rw [hsb]
    exact h.small
  · rw [hsb]
    exact (h.exact hs).put hnone hnew hsame fun c hc => (hbit c).1 hc

/-- A new block is put in an entry of an indirect block. -/
lemma addWord (h : Blocks strong dirty s) {a j : ℕ} (hi : hold (view s) s.data (i, .slot NDIRECT) = some a) (hj : j < NINDIRECT)
    (hz : (s.data a).word j = 0) (hb : s.bit b = false) (ha : DataArea s.sb b) :
    Blocks strong dirty ((allocated s b).setData a ((s.data a).setWord j b)) := by
  have h0 : b ≠ 0 := area_pos ha
  have hai : (view s i).addrs NDIRECT = a ∧ a ≠ 0 := by
    simp only [hold, le_refl, if_true] at hi
    exact block_eq.1 hi
  have hab : a ≠ b := by
    rintro rfl
    exact h.not_held hb _ hi
  have hlt : b < 2 ^ 32 := by
    have h1 := ha.2
    have h2 := h.small
    unfold dataEnd at h1
    omega
  generalize hs' : (allocated s b).setData a ((s.data a).setWord j b) = s'
  have hview : view s' = view s := by rw [← hs']; rfl
  have hsb : s'.sb = s.sb := by rw [← hs']; rfl
  have hbit : ∀ c, s'.bit c = true ↔ s.bit c = true ∨ c = b := fun c => by rw [← hs']; exact bit_allocated c
  have hda : s'.data a = (s.data a).setWord j b := by rw [← hs']; exact if_pos rfl
  have hdo : ∀ c, c ≠ a → c ≠ b → s'.data c = s.data c := fun c h1 h2 => by
    rw [← hs']
    show (if c = a then _ else if c = b then _ else s.data c) = s.data c
    rw [if_neg h1, if_neg h2]
  -- block `a` is the indirect block of inode `i` only
  have hone : ∀ i', (view s i').addrs NDIRECT = a → i' = i := by
    intro i' hi'
    have : hold (view s) s.data (i', .slot NDIRECT) = some a := by
      simp only [hold, le_refl, if_true]
      exact block_eq.2 ⟨hi', hai.2⟩
    have := h.owns.once _ _ a this hi
    exact (Prod.mk.inj this).1
  obtain ⟨hnone, hnew, hsame⟩ := hold_putWord hj h0 hlt hai.1 hai.2 hone (h.not_indirect_of_free hb h0) hz hda hdo
  refine ⟨?_, ?_, ?_, ?_, ?_, ?_, fun hs => ?_⟩
  · rw [← hs']
    exact h.uniq
  · rw [← hs']
    exact h.disk
  · rw [← hs']
    exact h.typed
  · rw [hsb, hview]
    exact h.owns.put (by simp [hb]) ha.1 hnew hsame fun c hc => (hbit c).2 hc
  · intro c hc
    rw [hsb] at hc
    exact (hbit c).2 (Or.inl (h.head c hc))
  · rw [hsb]
    exact h.small
  · rw [hsb, hview]
    exact (h.exact hs).put hnone hnew hsame fun c hc => (hbit c).1 hc

/-- An inode is freed: its blocks are given back, its addresses cleared in the cache and on disk. -/
lemma freed (h : Blocks strong dirty s) (hl : Loaded s ip) (hd : dirty = none ∨ dirty = some ip)
    (hsb : s'.sb = s.sb) (hdata : s'.data = s.data)
    (hbit : ∀ c, s'.bit c = true ↔ s.bit c = true ∧ ∀ x, hold (view s) s.data ((s.icache ip).inum, x) ≠ some c)
    (hdin : ∀ i, i ≠ (s.icache ip).inum → s'.dinode i = s.dinode i)
    (hz : ∀ k, k ≤ NDIRECT → (s'.dinode (s.icache ip).inum).addrs k = 0)
    (hother : ∀ jp, jp ≠ ip → s'.icache jp = s.icache jp)
    (hself : (s'.icache ip).inum = (s.icache ip).inum ∧ (s'.icache ip).valid = false) : Blocks strong none s' := by
  have hlo : ∀ jp, Loaded s' jp → jp ≠ ip ∧ Loaded s jp := by
    intro jp h1
    have hj : jp ≠ ip := by
      rintro rfl
      have := h1.2
      rw [hself.2] at this
      exact Bool.noConfusion this
    exact ⟨hj, by rwa [Loaded, Live, hother jp hj] at h1⟩
  have hin : ∀ jp, (s'.icache jp).inum = (s.icache jp).inum := by
    intro jp
    by_cases hj : jp = ip
    · rw [hj, hself.1]
    · rw [hother jp hj]
  have hlive : ∀ jp, Live s' jp → Live s jp := by
    intro jp h1
    by_cases hj : jp = ip
    · exact hj ▸ hl.1
    · rwa [Live, hother jp hj] at h1
  have hu : Uniq s' := fun jp kp h1 h2 h3 => h.uniq jp kp (hlive jp h1) (hlive kp h2) (by rwa [hin, hin] at h3)
  have hne : ∀ jp, Loaded s' jp → (s.icache jp).inum ≠ (s.icache ip).inum := fun jp h1 hi =>
    (hlo jp h1).1 (h.uniq jp ip (hlo jp h1).2.1 hl.1 hi)
  have hview : ∀ i, i ≠ (s.icache ip).inum → view s' i = view s i := by
    intro i hi
    refine view_congr hu (fun jp h1 h2 => ?_) fun hno => ?_
    · have hj : jp ≠ ip := by
        rintro rfl
        exact hi h2.symm
      rw [Loaded, Live, hother jp hj]
      exact ⟨h1, h2, rfl⟩
    · rw [view_unloaded fun jp h1 => ?_, hdin i hi]
      rw [hin]
      exact hno jp (hlo jp h1).2
  have hviewi : ∀ k, k ≤ NDIRECT → (view s' (s.icache ip).inum).addrs k = 0 := by
    intro k hk
    rw [view_unloaded fun jp h1 => ?_, Dinode.used_addrs (hz k hk)]
    rw [hin]
    exact hne jp h1
  have hholdi : ∀ x, hold (view s') s'.data ((s.icache ip).inum, x) = none := by
    intro x
    cases x with
    | slot k =>
      simp only [hold]
      split_ifs with hk
      · rw [hviewi k hk]
        rfl
      · rfl
    | word j =>
      simp only [hold, hviewi NDIRECT le_rfl]
      simp
  have hhold : ∀ i x, i ≠ (s.icache ip).inum → hold (view s') s'.data (i, x) = hold (view s) s.data (i, x) := by
    intro i x hi
    cases x <;> simp only [hold, hview i hi, hdata]
  refine ⟨hu, fun jp k h1 hk => ?_, fun jp h1 => ?_, ?_, ?_, ?_, fun hs => ?_⟩
  · obtain ⟨hj, h2⟩ := hlo jp h1
    rw [hother jp hj, hdin _ (hne jp h1)]
    refine (h.disk jp k h2 hk).imp id fun h3 => ⟨fun hs => ?_, h3.2⟩
    have := h3.1 hs
    rcases hd with hd | hd <;> rw [hd] at this
    · simp at this
    · exact absurd (Option.some.inj this).symm hj
  · obtain ⟨hj, h2⟩ := hlo jp h1
    rw [hother jp hj]
    exact h.typed jp h2
  · rw [hsb]
    refine h.owns.drop (fun x => x.1 = (s.icache ip).inum) (fun x c hx => ?_) fun c hc hg => ?_
    · obtain ⟨i, x⟩ := x
      by_cases hi : i = (s.icache ip).inum
      · rw [hi, hholdi] at hx
        simp at hx
      · rw [hhold i x hi] at hx
        exact ⟨hx, hi⟩
    · exact (hbit c).2 ⟨hc, fun x => hg _ rfl⟩
  · intro c hc
    rw [hsb] at hc
    refine (hbit c).2 ⟨h.head c hc, fun x hx => ?_⟩
    exact absurd (h.owns.inside _ c hx) (by omega)
  · rw [hsb]
    exact h.small
  · rw [hsb]
    refine (h.exact hs).drop (fun x => x.1 = (s.icache ip).inum) (fun x c hx hg => ?_) fun c hc => ?_
    · obtain ⟨i, x⟩ := x
      rwa [hhold i x hg]
    · obtain ⟨h1, h2⟩ := (hbit c).1 hc
      refine ⟨h1, fun x hx => ?_⟩
      obtain ⟨i, x⟩ := x
      obtain rfl : i = (s.icache ip).inum := hx
      exact h2 x

end Blocks

end Files

end Os132

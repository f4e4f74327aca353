import Os132.Files.Held

/-!
# What fs.c keeps

The functions of fs.c, executed alone, keep the invariant of blocks and references. They are checked
against a guard: an allocation finds a free block in the data area, and if the disk is to agree with the
cache, no block below the size of a file is missing; then every block that is marked lies in the data
area, and at every commit the bitmap marks just the blocks of the inodes on disk.
-/

namespace Os132

namespace Files

open Prog

/-- A block of the data area is free. -/
def Room (s : State) : Prop := ∃ b, DataArea s.sb b ∧ s.bit b = false

/-- The block of entry `i` of `addrs` lies behind the end of the file. -/
def PastEnd (d : Dinode) (i : ℕ) : Prop := d.size ≤ i * BSIZE

/-- On disk, a block of the data area is marked just if a place in an allocated inode holds it, and no
two places hold the same one. -/
structure Consistent (s : State) : Prop where
  marked : ∀ b, DataArea s.sb b → (s.bit b = true ↔
    ∃ i x, (s.dinode i).type ≠ 0 ∧ hold s.dinode s.data (i, x) = some b)
  once : ∀ i x j y b, (s.dinode i).type ≠ 0 → (s.dinode j).type ≠ 0 →
    hold s.dinode s.data (i, x) = some b → hold s.dinode s.data (j, y) = some b → i = j ∧ x = y

/-- The block that an action marks. -/
def Marks (s s' : State) (b : ℕ) : Prop := s.bit b = false ∧ s'.bit b = true

def guard (strong : Prop) : Guard State Label where
  may
    | .addr ip i, s => (s.icache ip).d.addrs i = 0 → Room s ∧ (strong → PastEnd (s.icache ip).d i)
    | .indirect b i, s => (s.data b).word i = 0 → Room s
    | _, _ => True
  does
    | .commit, s, s' => (∀ b, Marks s s' b → DataArea s.sb b) ∧ (strong → Consistent s)
    | _, s, s' => ∀ b, Marks s s' b → DataArea s.sb b

lemma Marks.irrefl {s s' : State} {b : ℕ} (hb : s'.bit = s.bit) : ¬ Marks s s' b := by
  rintro ⟨h1, h2⟩
  rw [hb, h1] at h2
  exact Bool.noConfusion h2

/-- The stops that are not excluded. -/
def Halts (e : Stop) : Prop := e ≠ .panic "freeing free block"

abbrev Safe {α : Type} (strong : Prop) (p : Code α) (s : State) (post : α → State → Prop) : Prop :=
  wp (guard strong) p s post Halts

variable {α β : Type} {strong : Prop} {dirty dirty' : Option ℕ} {C : Ctx} {L L' K K' : List ℕ} {s s' : State}
  {ip jp dp i k b : ℕ}

lemma hold_used {x : Place} : hold (fun i => (s.dinode i).used) s.data (i, x) = some b ↔
    (s.dinode i).type ≠ 0 ∧ hold s.dinode s.data (i, x) = some b := by
  by_cases ht : (s.dinode i).type = 0
  · have hz : ∀ k, (s.dinode i).used.addrs k = 0 := fun k => by
      rw [Dinode.used, if_pos ht]
      rfl
    refine ⟨fun h => ?_, fun h => absurd ht h.1⟩
    cases x <;> simp [hold, hz, block] at h
  · cases x <;> simp [hold, Dinode.used_of_type ht, ht]

lemma Blocks.consistent (h : Blocks strong none s) (hs : strong) : Consistent s := by
  have haddr : ∀ i k, k ≤ NDIRECT → (s.dinode i).used.addrs k = (view s i).addrs k := by
    intro i k hk
    rcases view_cases s i with ⟨ip, hl, rfl, hv⟩ | ⟨-, hv⟩
    · rw [hv]
      exact (h.disk ip k hl hk).resolve_right fun h1 => by simpa using h1.1 hs
    · rw [hv]
  have hhold : hold (fun i => (s.dinode i).used) s.data = hold (view s) s.data := hold_congr haddr
  refine ⟨fun b hb => ⟨fun hbit => ?_, ?_⟩, fun i x j y b hi hj hx hy => ?_⟩
  · obtain ⟨⟨i, x⟩, hx⟩ := h.exact hs b hb hbit
    rw [← hhold] at hx
    exact ⟨i, x, hold_used.1 hx⟩
  · rintro ⟨i, x, hx⟩
    refine h.owns.marked (i, x) b ?_
    rw [← hhold]
    exact hold_used.2 hx
  · have hx := hold_used.2 ⟨hi, hx⟩
    have hy := hold_used.2 ⟨hj, hy⟩
    rw [hhold] at hx hy
    exact Prod.mk.inj (h.owns.once _ _ b hx hy)

lemma Blocks.of_norm (h : Blocks strong dirty (norm s)) : Blocks strong dirty s :=
  h.congr rfl rfl rfl rfl (fun _ => Iff.rfl) (fun _ => rfl) (fun _ => rfl) fun _ => rfl

section norm

variable (h : norm s' = norm s)
include h

lemma norm_sb : s'.sb = s.sb := (congrArg State.sb h :)
lemma norm_dinode : s'.dinode = s.dinode := (congrArg State.dinode h :)
lemma norm_bit : s'.bit = s.bit := (congrArg State.bit h :)
lemma norm_data : s'.data = s.data := (congrArg State.data h :)
lemma norm_icache : s'.icache = s.icache := (congrArg State.icache h :)
lemma norm_file : s'.file = s.file := (congrArg State.file h :)
lemma norm_proc : s'.proc = s.proc := (congrArg State.proc h :)

end norm

/-! ### Actions -/

lemma safe_bind {p : Code α} {g : α → Code β} {post : β → State → Prop}
    (h : Safe strong p s fun a s' => Safe strong (g a) s' post) : Safe strong (p >>= g) s post := wp_bind h

lemma safe_other {f : State → Except Stop (α × State)} {post : α → State → Prop}
    (hok : ∀ a s', f s = .ok (a, s') → (∀ x, s'.bit x = true → s.bit x = true) ∧ post a s')
    (herr : ∀ e, f s = .error e → Halts e) : Safe strong (Prog.act .other f) s post := by
  refine wp_act (fun _ a s' h => ⟨fun x hx => ?_, (hok a s' h).2⟩) fun _ => herr
  have := (hok a s' h).1 x hx.2
  rw [hx.1] at this
  exact Bool.noConfusion this

lemma safe_look {f : State → α} {post : α → State → Prop} (h : post (f s) s) : Safe strong (look f) s post :=
  safe_other (fun a s' h' => by cases h'; exact ⟨fun _ h => h, h⟩) fun e h' => by cases h'

lemma safe_look_eq {f : State → α} {x : α} {post : α → State → Prop} (hx : f s = x) (h : post x s) :
    Safe strong (look f) s post := safe_look (hx ▸ h)

lemma safe_change {f : State → State} {post : Unit → State → Prop} (hb : ∀ x, (f s).bit x = true → s.bit x = true)
    (h : post () (f s)) : Safe strong (change f) s post :=
  safe_other (fun a s' h' => by cases h'; exact ⟨hb, h⟩) fun e h' => by cases h'

lemma safe_panic {msg : String} {post : α → State → Prop} (h : msg ≠ "freeing free block") :
    Safe strong (panic msg) s post :=
  safe_other (fun a s' h' => by cases h') fun e h' => by
    cases h'
    simpa [Halts] using h

lemma safe_bread {x : ℕ} {post : Unit → State → Prop} (h : ∀ hd, post () { s with held := hd }) :
    Safe strong (bread x) s post := by
  refine safe_other (fun a s' h' => ?_) fun e h' => ?_
  · split_ifs at h'
    cases h'
    exact ⟨fun _ h => h, h _⟩
  · split_ifs at h'
    cases h'
    simp [Halts]

lemma safe_brelse {x : ℕ} {post : Unit → State → Prop} (h : ∀ hd, post () { s with held := hd }) :
    Safe strong (brelse x) s post := safe_change (fun _ h => h) (h _)

lemma safe_inode {post : Dinode → State → Prop} (h : post (s.icache ip).d s) : Safe strong (inode ip) s post := safe_look h

lemma safe_setInode {f : Dinode → Dinode} {post : Unit → State → Prop}
    (h : post () (s.setInode ip { s.icache ip with d := f (s.icache ip).d })) : Safe strong (setInode ip f) s post :=
  safe_change (fun _ h => h) h

lemma safe_logWrite {x : ℕ} {post : Unit → State → Prop} (h : ∀ lg, post () { s with logged := lg }) :
    Safe strong (logWrite x) s post := by
  refine wp_act (fun _ a s' h' => ?_) fun _ e h' => ?_
  · split at h'
    · cases h'
    · split at h'
      · cases h'
      · cases h'
        split
        · exact ⟨fun x hx => absurd hx (Marks.irrefl rfl), h s.logged⟩
        · exact ⟨fun x hx => absurd hx (Marks.irrefl rfl), h _⟩
  · split at h'
    · cases h'
      simp [Halts]
    · split at h'
      · cases h'
        simp [Halts]
      · cases h'

lemma safe_begin {post : Unit → State → Prop} (h : post () { s with busy := true }) : Safe strong beginTrans s post := by
  refine wp_act (fun _ a s' h' => ?_) fun _ e h' => ?_
  · split_ifs at h'
    cases h'
    exact ⟨fun x hx => absurd hx (Marks.irrefl rfl), h⟩
  · split_ifs at h'
    cases h'
    simp [Halts]

lemma safe_commit {post : Unit → State → Prop} (hc : strong → Consistent s)
    (h : post () { s with busy := false, logged := [] }) : Safe strong commitTrans s post := by
  refine wp_act (fun _ a s' h' => ?_) fun _ e h' => ?_
  · cases h'
    exact ⟨⟨fun x hx => absurd hx (Marks.irrefl rfl), hc⟩, h⟩
  · cases h'

/-! ### Blocks -/

lemma safe_readsb {post : Super → State → Prop} (h : ∀ s', norm s' = norm s → post s.sb s') :
    Safe strong readsb s post :=
  safe_bind (safe_bread fun _ => safe_bind (safe_look (safe_bind (safe_brelse fun _ => wp_pure (h _ rfl)))))

lemma safe_bzero {post : Unit → State → Prop} (h : ∀ s', norm s' = norm (s.setData b fun _ => 0) → post () s') :
    Safe strong (bzero b) s post :=
  safe_bind (safe_bread fun _ => safe_bind (safe_change (fun _ h => h)
    (safe_bind (safe_logWrite fun _ => safe_brelse fun _ => h _ rfl))))

/-- The scan finds the first free block, which lies before any other free one. -/
lemma safe_ballocFrom {post : ℕ → State → Prop} (hroom : Room s) (hhead : ∀ c, c < dataStart s.sb → s.bit c = true)
    (h : ∀ b s', s.bit b = false → DataArea s.sb b → norm s' = norm (Blocks.allocated s b) → post b s') (n b : ℕ)
    (hb : ∀ c, c < b → c < s.sb.size → s.bit c = true) {t : State} (ht : norm t = norm s) :
    Safe strong (ballocFrom s.sb b n) t post := by
  induction n generalizing b t with
  | zero => exact safe_panic (by decide)
  | succ n ih =>
    have hbit := norm_bit ht
    refine safe_bind (safe_bread fun hd => safe_bind (safe_look_eq hbit ?_))
    cases hf : (List.range BPB).find? fun bi => b + bi < s.sb.size ∧ s.bit (b + bi) = false with
    | none =>
      refine safe_bind (safe_brelse fun hd' => ih _ (fun c h1 h2 => ?_) ht)
      by_cases hc : c < b
      · exact hb c hc h2
      · have := List.find?_eq_none.mp hf (c - b) (List.mem_range.mpr (by omega))
        simp only [decide_eq_true_eq, not_and, Bool.not_eq_false] at this
        have := this (by omega)
        rwa [show b + (c - b) = c by omega] at this
    | some bi =>
      obtain ⟨h1, -, hmin⟩ := List.find?_range_eq_some.mp hf
      simp only [decide_eq_true_eq] at h1
      have hfirst : ∀ c, c < b + bi → c < s.sb.size → s.bit c = true := by
        intro c h2 h3
        by_cases hc : c < b
        · exact hb c hc h3
        · have := hmin (c - b) (by omega)
          simp only [Bool.not_eq_eq_eq_not, Bool.not_true, decide_eq_false_iff_not, not_and, Bool.not_eq_false] at this
          have := this (by omega)
          rwa [show b + (c - b) = c by omega] at this
      have harea : DataArea s.sb (b + bi) := by
        obtain ⟨c, hc, hcb⟩ := hroom
        have hend := hc.2
        have hle : b + bi ≤ c := by
          by_contra hlt
          have := hfirst c (by omega) (by unfold dataEnd at hend; omega)
          rw [hcb] at this
          exact Bool.noConfusion this
        refine ⟨?_, by omega⟩
        by_contra hlt
        have := hhead (b + bi) (by omega)
        rw [h1.2] at this
        exact Bool.noConfusion this
      have hmark : ∀ x, Marks { t with held := hd } (State.setBit { t with held := hd } (b + bi) true) x →
          DataArea t.sb x := by
        intro x hx
        have hx2 : (if x = b + bi then true else s.bit x) = true := by rw [← hbit]; exact hx.2
        have hx1 : s.bit x = false := by rw [← hbit]; exact hx.1
        split_ifs at hx2 with hxb
        · rw [hxb, norm_sb ht]
          exact harea
        · rw [hx1] at hx2
          exact Bool.noConfusion hx2
      refine safe_bind (wp_act (fun _ a s' h' => ?_) fun _ e h' => by cases h')
      cases h'
      refine ⟨hmark, safe_bind (safe_logWrite fun lg => safe_bind (safe_brelse fun hd' => safe_bind (safe_bzero fun s' hs' => ?_)))⟩
      refine wp_pure (h _ _ h1.2 harea (hs'.trans ?_))
      have := congrArg (fun u : State => norm (Blocks.allocated u (b + bi))) ht
      exact this

lemma safe_balloc {post : ℕ → State → Prop} (hroom : Room s) (hhead : ∀ c, c < dataStart s.sb → s.bit c = true)
    (h : ∀ b s', s.bit b = false → DataArea s.sb b → norm s' = norm (Blocks.allocated s b) → post b s') :
    Safe strong balloc s post :=
  safe_bind (safe_readsb fun _ hs' => safe_ballocFrom hroom hhead h _ 0 (fun c hc => absurd hc (by omega)) hs')

lemma safe_bfree {post : Unit → State → Prop} (hb : s.bit b = true) (h : ∀ s', norm s' = norm (s.setBit b false) → post () s') :
    Safe strong (bfree b) s post := by
  refine safe_bind (safe_readsb fun t ht => safe_bind (safe_bread fun hd => safe_bind (safe_look_eq (x := true) ?_ ?_)))
  · rw [← hb]
    exact congrFun (norm_bit ht) b
  rw [if_neg (by simp)]
  refine safe_bind (safe_change (fun x hx => ?_) (safe_bind (safe_logWrite fun lg => safe_brelse fun hd' => h _ ?_)))
  · have hx : (if x = b then false else t.bit x) = true := hx
    split_ifs at hx
    exact hx
  · exact congrArg (fun u : State => norm (u.setBit b false)) ht

/-! ### The inode cache -/

/-- The invariant, but for the buffers, the log and the console. -/
abbrev Good (strong : Prop) (dirty : Option ℕ) (C : Ctx) (L K : List ℕ) (s : State) : Prop :=
  At strong dirty C L K (norm s)

@[simp] lemma setInode_self (v : Inode) : (s.setInode ip v).icache ip = v := if_pos rfl

lemma setInode_ne {v : Inode} (h : jp ≠ ip) : (s.setInode ip v).icache jp = s.icache jp := if_neg h

lemma safe_iget {inum : ℕ} {post : ℕ → State → Prop} (h : Good strong dirty C L K s)
    (hp : ∀ ip s', Good strong dirty C (ip :: L) K s' → post ip s') : Safe strong (iget inum) s post := by
  refine safe_other (fun a s' h' => ?_) fun e h' => ?_
  · split at h'
    · rename_i ip hf
      cases h'
      have h1 := List.find?_some hf
      have h2 := List.mem_range.mp (List.mem_of_find?_eq_some hf)
      simp only [decide_eq_true_eq] at h1
      exact ⟨fun _ h => h, hp _ _ (h.dup ⟨h2, h1.1⟩)⟩
    · rename_i hno
      split at h'
      · rename_i ip hf
        cases h'
        have h1 := List.find?_some hf
        have h2 := List.mem_range.mp (List.mem_of_find?_eq_some hf)
        simp only [decide_eq_true_eq] at h1
        refine ⟨fun _ h => h, hp _ _ (h.get h2 h1 fun jp hl hi => ?_)⟩
        have := List.find?_eq_none.mp hno jp (List.mem_range.mpr hl.1)
        simp only [decide_eq_true_eq] at this
        exact this ⟨hl.2, hi⟩
      · cases h'
  · split at h'
    · cases h'
    · split at h'
      · cases h'
      · cases h'
        simp [Halts]

lemma safe_idup {post : ℕ → State → Prop} (h : Good strong dirty C L K s) (hb : C.Backed L ip)
    (hp : ∀ s', Good strong dirty C (ip :: L) K s' → post ip s') : Safe strong (idup ip) s post :=
  safe_bind (safe_change (fun _ h => h) (wp_pure (hp _ (h.dup (h.live_of_backed hb)))))

lemma safe_iupdate_eq {post : Unit → State → Prop}
    (hp : ∀ s', norm s' = norm (s.setDinode (s.icache ip).inum (s.icache ip).d) → post () s') : Safe strong (iupdate ip) s post :=
  safe_bind (safe_look (safe_bind (safe_bread fun _ => safe_bind (safe_change (fun _ h => h)
    (safe_bind (safe_logWrite fun _ => safe_brelse fun _ => hp _ rfl))))))

lemma safe_iupdate {post : Unit → State → Prop} (h : Good strong dirty C L K s) (hl : Loaded s ip)
    (hd : dirty = none ∨ dirty = some ip)
    (hp : ∀ s', Good strong none C L K s' → s'.icache = s.icache → post () s') : Safe strong (iupdate ip) s post := by
  refine safe_iupdate_eq fun s' hs' => hp s' ?_ ((norm_icache hs').trans rfl)
  show At strong none C L K (norm s')
  rw [hs']
  exact h.of_blocks (h.blocks.update hl hd) rfl rfl rfl

lemma safe_iallocFrom {type : Int16} {post : ℕ → State → Prop} (h : Good strong dirty C L K s)
    (hp : ∀ ip s', Good strong dirty C (ip :: L) K s' → post ip s') (n inum : ℕ) :
    Safe strong (iallocFrom type inum n) s post := by
  induction n generalizing inum s with
  | zero => exact safe_panic (by decide)
  | succ n ih =>
    have hskip : ∀ hd, Safe strong (iallocFrom type (inum + 1) n) { s with held := hd } post := fun hd =>
      ih (s := { s with held := hd }) h (inum + 1)
    refine safe_bind (safe_bread fun hd => safe_bind (safe_look ?_))
    split
    · rename_i ht
      refine safe_bind (safe_change (fun _ h => h) (safe_bind (safe_logWrite fun lg => safe_bind (safe_brelse fun hd' => ?_))))
      refine safe_iget ?_ hp
      exact h.of_blocks (h.blocks.create ht fun k _ => rfl) rfl rfl rfl
    · exact safe_bind (safe_brelse fun hd' => hskip _)

lemma safe_ialloc {type : Int16} {post : ℕ → State → Prop} (h : Good strong dirty C L K s)
    (hp : ∀ ip s', Good strong dirty C (ip :: L) K s' → post ip s') : Safe strong (ialloc type) s post := by
  refine safe_bind (safe_readsb fun s' hs' => safe_iallocFrom ?_ hp _ _)
  show At strong dirty C L K (norm s')
  rw [hs']
  exact h

/-- After `ilock` the copy of the inode is valid. -/
lemma safe_ilock {post : Unit → State → Prop} (h : Good strong dirty C L K s) (hb : C.Backed L ip)
    (hp : ∀ s', Good strong dirty C L (ip :: K) s' → post () s') : Safe strong (ilock ip) s post := by
  have hl : Live s ip := h.live_of_backed hb
  refine safe_bind (safe_other (fun a s₁ h' => ?_) fun e h' => ?_)
  · split at h'
    · cases h'
    · split at h'
      · cases h'
      · cases h'
        refine ⟨fun _ h => h, ?_⟩
        have h₁ : Good strong dirty C L K (s.setInode ip { s.icache ip with busy := true }) := h.setBusy hl true
        generalize s.setInode ip { s.icache ip with busy := true } = s₁ at h₁
        refine safe_bind (safe_look ?_)
        cases hv : (s₁.icache ip).valid with
        | true =>
          have hl₁ : Live s₁ ip := h₁.live_of_backed hb
          refine wp_pure (hp _ ⟨h₁.file, h₁.proc, h₁.blocks, h₁.refs, fun jp hj => ?_, fun jp hj => ?_⟩)
          · rcases List.mem_cons.1 hj with rfl | hj
            · exact ⟨hl₁, hv⟩
            · exact h₁.locked jp hj
          · rcases List.mem_cons.1 hj with rfl | hj
            · exact hb
            · exact h₁.backed jp hj
        | false =>
          refine safe_bind (safe_look (safe_bind (safe_bread fun hd => safe_bind (safe_change (fun _ h => h)
            (safe_bind (safe_brelse fun hd' => safe_bind (safe_change (fun _ h => h) (safe_bind (safe_inode ?_)))))))))
          simp only [State.setInode, if_true]
          split
          · exact safe_panic (by decide)
          · rename_i ht
            refine wp_pure (hp _ ?_)
            have hload := h₁.load hb (v := { s₁.icache ip with d := s₁.dinode (s₁.icache ip).inum, valid := true })
              rfl rfl rfl hv rfl ht
            have heq : ∀ v w : Inode, (fun x => if x = ip then w else if x = ip then v else s₁.icache x) =
                fun x => if x = ip then w else s₁.icache x := by
              intro v w
              funext x
              split_ifs <;> rfl
            show At strong dirty C L (ip :: K) (norm _)
            simp only [heq]
            exact hload
  · split at h'
    · cases h'
      simp [Halts]
    · split at h'
      · cases h'
        simp [Halts]
      · cases h'

lemma safe_iunlock {post : Unit → State → Prop} (h : Good strong dirty C L K s) (hl : Live s ip)
    (hp : ∀ s', Good strong dirty C L K s' → post () s') : Safe strong (iunlock ip) s post := by
  refine safe_other (fun a s' h' => ?_) fun e h' => ?_
  · split at h'
    · cases h'
    · cases h'
      exact ⟨fun _ h => h, hp _ (h.setBusy hl false)⟩
  · split at h'
    · cases h'
      simp [Halts]
    · cases h'

end Files

end Os132

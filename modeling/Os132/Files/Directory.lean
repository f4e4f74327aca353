import Os132.Files.Array
import Os132.Files.Lookup

/-!
# Directories as maps

What `dirlookup`, `dirlink` and the clearing of an entry by `unlink` do to the map that the bytes of a
directory stand for.
-/

namespace Os132

namespace Files

open Prog

variable {stop : Stop → Prop} {s s' t : State} {ip dp i j k b m n off inum : ℕ} {l : List UInt8} {name other : Name}

/-- A directory with these bytes is locked at `dp`, in a consistent file system. -/
structure Opened (s : State) (dp : ℕ) (l : List UInt8) : Prop where
  blocks : Blocks False none s
  loaded : Loaded s dp
  held : s.held = []
  type : (s.icache dp).d.type = T_DIR
  contents : Contents s (s.icache dp).inum l
  even : Even l

namespace Opened

lemma view (h : Opened s dp l) : Files.view s (s.icache dp).inum = (s.icache dp).d := view_loaded h.blocks.uniq h.loaded

lemma size (h : Opened s dp l) : (s.icache dp).d.size = l.length := by
  rw [← h.view]
  exact h.contents.1

lemma legible (h : Opened s dp l) : Legible s (s.icache dp).d := by
  refine ⟨h.type, ?_, by rw [h.size]; exact h.even⟩
  rw [← h.view]
  exact h.contents.whole

lemma slots_eq (h : Opened s dp l) : (s.icache dp).d.size / DIRENT = slots l := by
  rw [h.size]
  rfl

lemma entry (h : Opened s dp l) (hj : j < slots l) : entry s (s.icache dp).d j = slot l j := by
  have hl := h.even.length
  have hlt : DIRENT * j + DIRENT ≤ l.length := by
    have := Nat.mul_le_mul_left DIRENT hj
    rw [Nat.succ_eq_add_one, Nat.mul_add, Nat.mul_one] at this
    omega
  unfold Files.entry slot
  rw [← h.view, h.contents.bytes hlt]

lemma findEntry (h : Opened s dp l) : findEntry s (s.icache dp).d name = find l name := by
  cases hf : find l name with
  | none =>
    rw [find_eq_none] at hf
    rw [findEntry_eq_none, h.slots_eq]
    intro j hj
    rw [h.entry hj]
    exact hf j hj
  | some j =>
    obtain ⟨h1, h2, h3⟩ := find_eq_some.1 hf
    rw [findEntry_eq_some, h.slots_eq, h.entry h1]
    refine ⟨h1, h2, fun x hx => ?_⟩
    rw [h.entry (by omega)]
    exact h3 x hx

end Opened

/-! ### References -/

/-- Nothing has changed on disk, and every inode looks as it did. -/
structure SameFiles (s s' : State) : Prop where
  dinode : s'.dinode = s.dinode
  data : s'.data = s.data
  bit : s'.bit = s.bit
  view : view s' = view s

lemma SameFiles.contents (h : SameFiles s s') (hc : Contents s i l) : Contents s' i l := by
  unfold Contents fileByte at *
  rw [h.view, h.data]
  exact hc

/-- The inodes look as they did if the copies in use are the same. -/
lemma view_same {v : Inode} (hu : Uniq (s.setInode ip v))
    (h : 0 < v.ref ∧ v.valid = true ↔ 0 < (s.icache ip).ref ∧ (s.icache ip).valid = true)
    (hv : 0 < v.ref ∧ v.valid = true → v.inum = (s.icache ip).inum ∧ v.d = (s.icache ip).d) : view (s.setInode ip v) = view s := by
  have hload : ∀ jp, Loaded (s.setInode ip v) jp ↔ Loaded s jp := by
    intro jp
    unfold Loaded Live
    by_cases hj : jp = ip
    · rw [hj, setInode_self, and_assoc, and_assoc, h]
    · rw [setInode_ne hj]
  have hsame : ∀ jp, Loaded s jp → ((s.setInode ip v).icache jp).inum = (s.icache jp).inum ∧
      ((s.setInode ip v).icache jp).d = (s.icache jp).d := by
    intro jp hl
    by_cases hj : jp = ip
    · rw [hj, setInode_self]
      rw [hj] at hl
      exact hv (h.2 ⟨hl.1.2, hl.2⟩)
    · rw [setInode_ne hj]
      exact ⟨rfl, rfl⟩
  funext i
  refine view_congr hu (fun jp h1 h2 => ⟨(hload jp).2 h1, (hsame jp h1).1.trans h2, (hsame jp h1).2⟩) fun hno => ?_
  refine view_unloaded fun jp h1 h2 => ?_
  have h1 := (hload jp).1 h1
  exact hno jp h1 ((hsame jp h1).1 ▸ h2)

namespace Got

lemma inum_eq (h : Got s s' ip inum) : (s'.icache ip).inum = inum := by
  obtain ⟨-, ⟨-, h2, rfl⟩ | ⟨-, -, rfl⟩⟩ := h
  · rw [setInode_self]
    exact h2
  · rw [setInode_self]

lemma blocks (h : Got s s' ip inum) (hb : Blocks False none s) : Blocks False none s' := by
  obtain ⟨hip, ⟨h1, h2, rfl⟩ | ⟨h1, h2, rfl⟩⟩ := h
  · have hic : ∀ jp, ((s.setInode ip { s.icache ip with ref := (s.icache ip).ref + 1 }).icache jp) =
        if jp = ip then { s.icache ip with ref := (s.icache ip).ref + 1 } else s.icache jp := fun jp => rfl
    refine hb.congr rfl rfl rfl rfl (fun jp => ?_) (fun jp => ?_) (fun jp => ?_) fun jp => ?_
    · unfold Live
      rw [hic]
      split_ifs with hj
      · rw [hj]
        simp [h1]
      · rfl
    all_goals
      rw [hic]
      split_ifs with hj
      · rw [hj]
      · rfl
  · exact hb.fresh h1 h2 ⟨rfl, rfl⟩

lemma same (h : Got s s' ip inum) (hb : Blocks False none s) : SameFiles s s' := by
  have hu := (h.blocks hb).uniq
  obtain ⟨hip, ⟨h1, h2, rfl⟩ | ⟨h1, h2, rfl⟩⟩ := h
  · refine ⟨rfl, rfl, rfl, view_same hu ?_ fun _ => ⟨rfl, rfl⟩⟩
    simp [h1]
  · refine ⟨rfl, rfl, rfl, view_same hu ?_ fun hv => ?_⟩
    · simp [h1]
    · simp at hv

/-- Another place, or one that is in use, keeps its inode. -/
lemma keeps (h : Got s s' ip inum) (hl : Loaded s dp) :
    Loaded s' dp ∧ (s'.icache dp).inum = (s.icache dp).inum ∧ (s'.icache dp).d = (s.icache dp).d := by
  unfold Loaded Live at *
  obtain ⟨hip, ⟨h1, h2, rfl⟩ | ⟨h1, h2, rfl⟩⟩ := h
  · by_cases hj : dp = ip
    · subst hj
      rw [setInode_self]
      exact ⟨⟨⟨hip, Nat.succ_pos _⟩, hl.2⟩, rfl, rfl⟩
    · rw [setInode_ne hj]
      exact ⟨hl, rfl, rfl⟩
  · have hj : dp ≠ ip := by
      rintro rfl
      omega
    rw [setInode_ne hj]
    exact ⟨hl, rfl, rfl⟩

lemma opened (h : Got s s' ip inum) (ho : Opened s dp l) : Opened s' dp l := by
  obtain ⟨h1, h2, h3⟩ := h.keeps ho.loaded
  refine ⟨h.blocks ho.blocks, h1, ?_, by rw [h3]; exact ho.type, ?_, ho.even⟩
  · obtain ⟨-, ⟨-, -, rfl⟩ | ⟨-, -, rfl⟩⟩ := h <;> exact ho.held
  · rw [h2]
    exact (h.same ho.blocks).contents ho.contents

/-- Putting back the reference leaves all files as they were. -/
lemma sure_iput {post : Unit → State → Prop} (h : Got s s' ip inum) (ho : Opened s dp l)
    (hp : ∀ t, SameFiles s t → Opened t dp l → post () t) : Sure stop (iput ip) s' post := by
  have hb := h.blocks ho.blocks
  obtain ⟨hip, ⟨h1, h2, rfl⟩ | ⟨h1, h2, rfl⟩⟩ := h
  · -- the place is in use without this reference
    refine sure_bind (sure_act (a := false) (t := s) ?_ ?_)
    · have hnot : ¬ lastLink ((s.setInode ip { s.icache ip with ref := (s.icache ip).ref + 1 }).icache ip) := by
        rw [setInode_self]
        rintro ⟨h3, -⟩
        simp only at h3
        omega
      rw [if_neg hnot, setInode_self]
      simp only [State.setInode, Except.ok.injEq, Prod.mk.injEq, true_and]
      have hic : (fun x => if x = ip then { s.icache ip with ref := (s.icache ip).ref + 1 - 1 } else
          if x = ip then { s.icache ip with ref := (s.icache ip).ref + 1 } else s.icache x) = s.icache := by
        funext x
        split_ifs with hx
        · rw [hx]
          rfl
        · rfl
      rw [hic]
    · rw [if_neg (by simp)]
      exact wp_pure (hp s ⟨rfl, rfl, rfl, rfl⟩ ho)
  · generalize hv : ({ s.icache ip with inum := inum, ref := 1, busy := false, valid := false } : Inode) = v at hb ⊢
    refine sure_bind (sure_act (a := false) (t := (s.setInode ip v).setInode ip { v with ref := v.ref - 1 }) ?_ ?_)
    · have hnot : ¬ lastLink ((s.setInode ip v).icache ip) := by
        rw [setInode_self, ← hv]
        rintro ⟨-, h3, -⟩
        cases h3
      rw [if_neg hnot, setInode_self]
    · rw [if_neg (by simp)]
      have hne : dp ≠ ip := by
        rintro rfl
        have := ho.loaded.1.2
        omega
      have hblocks : Blocks False none ((s.setInode ip v).setInode ip { v with ref := v.ref - 1 }) := by
        refine hb.evict (fun h => h.elim) ?_ ?_
        · rw [setInode_self]
        · have href : v.ref = 1 := by rw [← hv]
          show v.ref - 1 = 0
          rw [href]
      have hic : (s.setInode ip v).setInode ip { v with ref := v.ref - 1 } = s.setInode ip { v with ref := v.ref - 1 } := by
        simp only [State.setInode]
        congr 1
        funext x
        split_ifs <;> rfl
      rw [hic] at hblocks ⊢
      have hsame : SameFiles s (s.setInode ip { v with ref := v.ref - 1 }) := by
        refine ⟨rfl, rfl, rfl, view_same hblocks.uniq ?_ fun h3 => ?_⟩
        · simp [← hv, h1]
        · simp [← hv] at h3
      refine wp_pure (hp _ hsame ⟨hblocks, ?_, ho.held, ?_, ?_, ho.even⟩)
      · unfold Loaded Live
        rw [setInode_ne hne]
        exact ho.loaded
      · rw [setInode_ne hne]
        exact ho.type
      · rw [setInode_ne hne]
        exact hsame.contents ho.contents

end Got

/-! ### Writing a slot -/

/-- The entry at a slot is written. -/
lemma Opened.sure_splice {src : List UInt8} {post : Option ℕ → State → Prop} (h : Opened s dp l) (hj : j ≤ slots l)
    (hsrc : src.length = DIRENT) (hfit : DIRENT * j + DIRENT ≤ MAXFILE * BSIZE) (hroom : Roomy s (DIRENT * j) DIRENT)
    (hp : ∀ s', Opened s' dp (splice l (DIRENT * j) src) →
      (∀ i l', i ≠ (s.icache dp).inum → Contents s i l' → Contents s' i l') →
      post (some DIRENT) s') : Sure stop (writei dp src (DIRENT * j)) s post := by
  have hoff : DIRENT * j ≤ l.length := by
    rw [h.even.length]
    exact Nat.mul_le_mul_left _ hj
  have hfits : Fits dp [] (touched (DIRENT * j) DIRENT) s := hroom.fits (by decide)
  have hfit' : DIRENT * j + src.length ≤ MAXFILE * BSIZE := by
    rw [hsrc]
    exact hfit
  have hfits' : Fits dp [] (touched (DIRENT * j) src.length) s := by
    rw [hsrc]
    exact hfits
  refine sure_writei h.blocks h.loaded h.held (by rw [h.type]; decide) (by rw [h.size]; exact hoff) hfit' hfits'
    fun s' hw => ?_
  rw [h.size] at hw
  rw [hsrc]
  refine hp s' ⟨hw.blocks, hw.loaded h.loaded, hw.held, ?_, ?_, (h.even.splice hj hsrc).1⟩ fun i l' hi hc => hc.other hw h.loaded hi
  · obtain ⟨a, ha⟩ := hw.d
    rw [ha]
    exact h.type
  · rw [hw.inum]
    exact hw.contents h.loaded hoff h.contents

lemma Opened.sure_emptyFrom {post : ℕ → State → Prop} (h : Opened s dp l) (n : ℕ) (hn : j + n = slots l)
    (hbefore : ∀ i, i < j → (slot l i).inum ≠ 0) (hp : post (DIRENT * vacant l) s) :
    Sure stop (emptyFrom dp (DIRENT * j) n) s post := by
  have hvac : ∀ k, (∀ i, i < k → (slot l i).inum ≠ 0) → (k < slots l → (slot l k).inum = 0) → k ≤ slots l → vacant l = k := by
    intro k h1 h2 h3
    unfold vacant
    by_cases hk : k < slots l
    · have : (List.range (slots l)).find? (fun j => decide ((slot l j).inum = 0)) = some k := by
        rw [List.find?_range_eq_some]
        refine ⟨by simpa using h2 hk, List.mem_range.2 hk, fun i hi => ?_⟩
        simpa using h1 i hi
      rw [this, Option.getD_some]
    · have : (List.range (slots l)).find? (fun j => decide ((slot l j).inum = 0)) = none := by
        rw [List.find?_eq_none]
        intro i hi
        rw [List.mem_range] at hi
        simpa using h1 i (by omega)
      rw [this, Option.getD_none]
      omega
  induction n generalizing j with
  | zero =>
    rw [hvac j hbefore (fun h => by omega) (by omega)] at hp
    exact wp_pure hp
  | succ n ih =>
    refine sure_bind (sure_readDirent h.held rfl h.legible (by rw [h.slots_eq]; omega) ?_)
    rw [h.entry (by omega)]
    split_ifs with h0
    · rw [hvac j hbefore (fun _ => h0) (by omega)] at hp
      exact wp_pure hp
    · refine ih (j := j + 1) (by omega) fun i hi => ?_
      rcases Nat.lt_succ_iff_lt_or_eq.1 hi with hlt | rfl
      · exact hbefore i hlt
      · exact h0

lemma Opened.sure_found {post : Option (ℕ × ℕ) → State → Prop} (h : Opened s dp l) (hj : find l name = some j)
    (hp : ∀ ip s', Got s s' ip (slot l j).inum → post (some (ip, DIRENT * j)) s') :
    Sure (CacheFull s) (dirlookup dp name) s post := by
  refine sure_dirlookup h.held rfl h.legible (fun hn => ?_) fun k hk => ?_
  · rw [h.findEntry, hj] at hn
    cases hn
  · rw [h.findEntry, hj] at hk
    cases hk
    rw [h.entry (find_eq_some.1 hj).1]
    exact sure_iget fun ip s' hg => hp ip s' hg

lemma Opened.sure_missing {post : Option (ℕ × ℕ) → State → Prop} (h : Opened s dp l) (hn : find l name = none)
    (hp : post none s) :
    Sure stop (dirlookup dp name) s post := by
  refine sure_dirlookup h.held rfl h.legible (fun _ => hp) fun k hk => ?_
  rw [h.findEntry, hn] at hk
  cases hk

lemma lookup_none_iff : lookup l name = none ↔ find l name = none := by
  unfold lookup
  rw [Option.map_eq_none_iff]

lemma Opened.sure_dirlink_bound {post : Bool → State → Prop} (h : Opened s dp l) (hj : find l name = some j)
    (hp : ∀ s', SameFiles s s' → Opened s' dp l → post false s') : Sure (CacheFull s) (dirlink dp name inum) s post :=
  sure_bind (h.sure_found hj fun _ _ hg => sure_bind (hg.sure_iput h fun t ht ho => wp_pure (hp t ht ho)))

/-- `dirlink` of a name that is missing. -/
lemma Opened.sure_dirlink {post : Bool → State → Prop} (h : Opened s dp l) (hn : find l name = none)
    (hfit : DIRENT * vacant l + DIRENT ≤ MAXFILE * BSIZE) (hroom : Roomy s (DIRENT * vacant l) DIRENT)
    (hp : ∀ s', Opened s' dp (link l name inum) →
      (∀ i l', i ≠ (s.icache dp).inum → Contents s i l' → Contents s' i l') → post true s') :
    Sure stop (dirlink dp name inum) s post := by
  refine sure_bind (h.sure_missing hn (sure_bind (sure_inode (sure_bind ?_))))
  have hcount : ((s.icache dp).d.size + (DIRENT - 1)) / DIRENT = slots l := by
    rw [h.size, h.even.length]
    unfold DIRENT
    omega
  rw [hcount]
  refine h.sure_emptyFrom (j := 0) _ (by omega) (fun i hi => absurd hi (by omega)) (sure_bind ?_)
  refine h.sure_splice vacant_le length_toBytes hfit hroom fun s' ho hc => ?_
  rw [if_pos rfl]
  exact wp_pure (hp s' ho hc)

/-! ### The map -/

/-- A directory that is reached from its two first entries by `dirlink` and the clearing of entries is a map from
names, cut to `DIRSIZ` bytes, to inode numbers: `dirlookup` returns what a name is bound to and where, `dirlink`
of a name that is bound fails, `dirlink` of another one binds it, `unlink` clears one binding. -/
theorem directory_map (h : Opened s dp l) (hr : Reached l) :
    Distinct l ∧
    (∀ name, (∃ r s', (dirlookup dp name).run s = .ok (r, s') ∧ SameFiles s s' ∧ Opened s' dp l ∧
        r.map (fun x => ((s'.icache x.1).inum, x.2)) = (find l name).map fun j => ((slot l j).inum, DIRENT * j)) ∨
      ∃ e, (dirlookup dp name).run s = .error e ∧ CacheFull s e ∧ lookup l name ≠ none) ∧
    (∀ name inum, lookup l name ≠ none →
      (∃ s', (dirlink dp name inum).run s = .ok (false, s') ∧ SameFiles s s' ∧ Opened s' dp l) ∨
        ∃ e, (dirlink dp name inum).run s = .error e ∧ CacheFull s e) ∧
    (∀ name inum, lookup l name = none → IsInum inum → DIRENT * vacant l + DIRENT ≤ MAXFILE * BSIZE →
      Roomy s (DIRENT * vacant l) DIRENT →
      ∃ s', (dirlink dp name inum).run s = .ok (true, s') ∧ Opened s' dp (link l name inum) ∧ Reached (link l name inum) ∧
        (∀ other, lookup (link l name inum) other = if namecmp other name then some inum else lookup l other) ∧
        ∀ i l', i ≠ (s.icache dp).inum → Contents s i l' → Contents s' i l') ∧
    ∀ name j, find l name = some j → Roomy s (DIRENT * j) DIRENT →
      ∃ s', (writei dp (List.replicate DIRENT 0) (DIRENT * j)).run s = .ok (some DIRENT, s') ∧ Opened s' dp (clear l j) ∧
        Reached (clear l j) ∧ (∀ other, lookup (clear l j) other = if namecmp other name then none else lookup l other) ∧
        ∀ i l', i ≠ (s.icache dp).inum → Contents s i l' → Contents s' i l' := by
  obtain ⟨hd, he⟩ := hr.distinct
  refine ⟨hd, fun name => ?_, fun name inum hb => ?_, fun name inum hn hi hfit hroom => ?_, fun name j hj hroom => ?_⟩
  · cases hf : find l name with
    | none =>
      have hsure : Sure (fun _ => False) (dirlookup dp name) s fun r s' => r = none ∧ s' = s := h.sure_missing hf ⟨rfl, rfl⟩
      rcases hsure.run with ⟨r, s', hrun, rfl, rfl⟩ | ⟨e, -, hno⟩
      · exact Or.inl ⟨none, s', hrun, ⟨rfl, rfl, rfl, rfl⟩, h, rfl⟩
      · exact hno.elim
    | some j =>
      have hsure : Sure (CacheFull s) (dirlookup dp name) s fun r s' =>
          ∃ ip, r = some (ip, DIRENT * j) ∧ Got s s' ip (slot l j).inum := h.sure_found hf fun ip s' hg => ⟨ip, rfl, hg⟩
      rcases hsure.run with ⟨r, s', hrun, ip, rfl, hg⟩ | ⟨e, hrun, hfull⟩
      · refine Or.inl ⟨_, s', hrun, hg.same h.blocks, hg.opened h, ?_⟩
        rw [Option.map_some, Option.map_some, hg.inum_eq]
      · refine Or.inr ⟨e, hrun, hfull, ?_⟩
        rw [Ne, lookup_none_iff, hf]
        exact fun h => by cases h
  · obtain ⟨j, hj⟩ := Option.ne_none_iff_exists'.1 (fun hn => hb (lookup_none_iff.2 hn))
    have hsure : Sure (CacheFull s) (dirlink dp name inum) s fun r s' => r = false ∧ SameFiles s s' ∧ Opened s' dp l :=
      h.sure_dirlink_bound hj fun s' hs ho => ⟨rfl, hs, ho⟩
    rcases hsure.run with ⟨r, s', hrun, rfl, hs, ho⟩ | ⟨e, hrun, hfull⟩
    · exact Or.inl ⟨s', hrun, hs, ho⟩
    · exact Or.inr ⟨e, hrun, hfull⟩
  · have hsure : Sure (fun _ => False) (dirlink dp name inum) s fun r s' => r = true ∧ Opened s' dp (link l name inum) ∧
        ∀ i l', i ≠ (s.icache dp).inum → Contents s i l' → Contents s' i l' :=
      h.sure_dirlink (lookup_none_iff.1 hn) hfit hroom fun s' ho hc => ⟨rfl, ho, hc⟩
    rcases hsure.run with ⟨r, s', hrun, rfl, ho, hc⟩ | ⟨e, -, hno⟩
    · exact ⟨s', hrun, ho, hr.link hn hi hfit, (hd.link he hn hi).2, hc⟩
    · exact hno.elim
  · obtain ⟨hlt, hb, -⟩ := find_eq_some.1 hj
    have hfit : DIRENT * j + DIRENT ≤ MAXFILE * BSIZE := by
      have hle := h.legible.whole.size_le
      rw [h.size, he.length] at hle
      have := Nat.mul_le_mul_left DIRENT hlt
      rw [Nat.succ_eq_add_one, Nat.mul_add, Nat.mul_one] at this
      omega
    have hsure : Sure (fun _ => False) (writei dp (List.replicate DIRENT 0) (DIRENT * j)) s fun r s' => r = some DIRENT ∧
        Opened s' dp (clear l j) ∧ ∀ i l', i ≠ (s.icache dp).inum → Contents s i l' → Contents s' i l' :=
      h.sure_splice hlt.le (List.length_replicate ..) hfit hroom fun s' ho hc => ⟨rfl, ho, hc⟩
    rcases hsure.run with ⟨r, s', hrun, rfl, ho, hc⟩ | ⟨e, -, hno⟩
    · exact ⟨s', hrun, ho, hr.clear hlt, (hd.clear he hlt).2 hb, hc⟩
    · exact hno.elim

/-- The bytes of the root directory when it is new. -/
def dots : List UInt8 := Dirent.toBytes 1 dot ++ Dirent.toBytes 1 dotdot

/-- A new root directory. -/
def newRoot : State := tenBlocks T_DIR 32 fun o => dots.getD o 0

lemma newRoot_opened : Opened newRoot 0 dots := by
  refine ⟨tenBlocks_blocks (by decide), tenBlocks_loaded.2 rfl, rfl, rfl,
    ⟨congrArg Dinode.size tenBlocks_view, fun o ho => ?_⟩, by decide⟩
  have hlt : o < 32 := ho
  have hbyte : fileByte newRoot 1 o = some (dots.getD (o % 512) 0) := tenBlocks_byte (by omega)
  show fileByte newRoot 1 o = _
  rw [hbyte, Nat.mod_eq_of_lt (by omega), List.getD_eq_getElem?_getD, List.getElem?_eq_getElem ho, Option.getD_some]

theorem directory_map_newRoot : ∃ s', (dirlink 0 [97] 5).run newRoot = .ok (true, s') ∧ Opened s' 0 (link dots [97] 5) ∧
    lookup (link dots [97] 5) [97] = some 5 := by
  have hfree : touched (DIRENT * 2) DIRENT + 1 ≤ freeBlocks newRoot := by decide +kernel
  have hv : vacant dots = 2 := by decide
  obtain ⟨s', h1, h2, -, h3, -⟩ := (directory_map newRoot_opened (Reached.dots (by decide) (by decide))).2.2.2.1 [97] 5
    (by decide) (by decide) (by decide) fun _ => ⟨rfl, by rw [hv]; exact hfree, by rw [hv]; decide⟩
  refine ⟨s', h1, h2, ?_⟩
  rw [h3]
  exact if_pos rfl

end Files

end Os132

import Os132.Files.Contents
import Os132.Files.Entries

/-!
# Looking up names

`dirlookup` takes the first entry in use that has the name. During a walk along a path only the inode
cache changes: the references that the walk holds are counted, and every copy is that of its inode.
-/

namespace Os132

namespace Files

open Prog

variable {stop : Stop → Prop} {s s' s₀ : State} {d : Dinode} {ip jp i j k off inum : ℕ} {name : Name} {L L' : List ℕ}
  {K K' : Option ℕ}

/-! ### Entries -/

/-- Entry `j` of a directory. -/
def entry (s : State) (d : Dinode) (j : ℕ) : Dirent := Dirent.ofBytes (bytesAt s d (DIRENT * j) DIRENT)

/-- The first entry that has the name. -/
def findEntry (s : State) (d : Dinode) (name : Name) : Option ℕ :=
  (List.range (d.size / DIRENT)).find? fun j => (entry s d j).Binds name

/-- A directory that can be read: no block is missing and the last entry is complete. -/
structure Legible (s : State) (d : Dinode) : Prop where
  type : d.type = T_DIR
  whole : Whole s d
  size : d.size % DIRENT = 0

lemma Whole.size_le (h : Whole s d) : d.size ≤ MAXFILE * BSIZE := by
  by_contra hlt
  exact absurd (h MAXFILE (by omega)).1 (lt_irrefl _)

section congr

variable (hd : s'.data = s.data)
include hd

lemma sector_congr : sector s' d k = sector s d k := by
  unfold sector
  rw [hd]

lemma Whole.congr (h : Whole s d) : Whole s' d := by
  intro k hk
  obtain ⟨h1, h2, h3⟩ := h k hk
  exact ⟨h1, by rw [sector_congr hd]; exact h2, h3⟩

lemma Legible.congr (h : Legible s d) : Legible s' d := ⟨h.type, h.whole.congr hd, h.size⟩

lemma bytesAt_congr {n : ℕ} : bytesAt s' d off n = bytesAt s d off n := by
  unfold bytesAt byteAt
  simp only [sector_congr hd, hd]

lemma entry_congr : entry s' d j = entry s d j := by
  unfold entry
  rw [bytesAt_congr hd]

end congr

lemma sure_readDirent {msg : String} {post : Dirent → State → Prop} (hs : s.held = []) (hd : (s.icache ip).d = d)
    (hl : Legible s d) (hj : j < d.size / DIRENT) (h : post (entry s d j) s) :
    Sure stop (readDirent ip (DIRENT * j) msg) s post := by
  have hle := hl.whole.size_le
  have hfit : DIRENT * j + DIRENT ≤ d.size := by
    unfold DIRENT at hj ⊢
    omega
  have hnum : MAXFILE * BSIZE < 2 ^ 32 := by decide
  refine sure_bind (sure_readi hs hd hl.whole ?_ (by omega) (by omega) ?_)
  · rw [hl.type]
    decide
  · rw [show min DIRENT (d.size - DIRENT * j) = DIRENT by omega]
    show Sure stop (if _ then _ else _) s post
    rw [if_pos length_bytesAt]
    exact wp_pure h

lemma sure_dirlookupFrom {post : Option (ℕ × ℕ) → State → Prop} (hs : s.held = []) (hd : (s.icache ip).d = d)
    (hl : Legible s d) (n : ℕ) (hn : j + n = d.size / DIRENT)
    (hnone : (∀ i, j ≤ i → i < d.size / DIRENT → ¬ (entry s d i).Binds name) → post none s)
    (hsome : ∀ i, j ≤ i → i < d.size / DIRENT → (entry s d i).Binds name →
      (∀ x, j ≤ x → x < i → ¬ (entry s d x).Binds name) →
      Sure stop (iget (entry s d i).inum) s fun ip s' => post (some (ip, DIRENT * i)) s') :
    Sure stop (dirlookupFrom ip name (DIRENT * j) n) s post := by
  induction n generalizing j with
  | zero => exact wp_pure (hnone fun i h1 h2 => absurd h2 (by omega))
  | succ n ih =>
    refine sure_bind (sure_readDirent hs hd hl (by omega) ?_)
    split
    · rename_i hb
      exact sure_bind ((hsome j le_rfl (by omega) hb fun x h1 h2 => absurd h2 (by omega)).imp fun _ _ h => wp_pure h)
    · rename_i hb
      -- entry `j` is not the one
      refine ih (j := j + 1) (by omega) (fun hno => hnone fun i h1 h2 => ?_) fun i h1 h2 h3 h4 => ?_
      · rcases Nat.eq_or_lt_of_le h1 with rfl | hlt
        · exact hb
        · exact hno i hlt h2
      · refine hsome i (by omega) h2 h3 fun x hx1 hx2 => ?_
        rcases Nat.eq_or_lt_of_le hx1 with rfl | hlt
        · exact hb
        · exact h4 x hlt hx2

lemma findEntry_eq_none : findEntry s d name = none ↔ ∀ j, j < d.size / DIRENT → ¬ (entry s d j).Binds name := by
  unfold findEntry
  simp only [List.find?_eq_none, List.mem_range, decide_eq_true_eq]

lemma findEntry_eq_some : findEntry s d name = some j ↔
    j < d.size / DIRENT ∧ (entry s d j).Binds name ∧ ∀ x, x < j → ¬ (entry s d x).Binds name := by
  unfold findEntry
  rw [List.find?_range_eq_some]
  simp only [decide_eq_true_eq, List.mem_range, Bool.not_eq_eq_eq_not, Bool.not_true, decide_eq_false_iff_not]
  tauto

/-- `dirlookup` returns the inode of the first entry with the name, and the offset of that entry. -/
lemma sure_dirlookup {post : Option (ℕ × ℕ) → State → Prop} (hs : s.held = []) (hd : (s.icache ip).d = d) (hl : Legible s d)
    (hnone : findEntry s d name = none → post none s)
    (hsome : ∀ j, findEntry s d name = some j →
      Sure stop (iget (entry s d j).inum) s fun ip s' => post (some (ip, DIRENT * j)) s') :
    Sure stop (dirlookup ip name) s post := by
  have hsize := hl.size
  refine sure_bind (sure_inode ?_)
  rw [hd, if_neg (by rw [hl.type]; exact fun h => h rfl)]
  have hcount : (d.size + (DIRENT - 1)) / DIRENT = d.size / DIRENT := by
    unfold DIRENT at hsize ⊢
    omega
  rw [hcount]
  refine sure_dirlookupFrom (j := 0) hs hd hl _ (by omega) (fun h => hnone ?_) fun j h1 h2 h3 h4 => hsome j ?_
  · exact findEntry_eq_none.2 fun j hj => h j (Nat.zero_le j) hj
  · exact findEntry_eq_some.2 ⟨h2, h3, fun x hx => h4 x (Nat.zero_le x) hx⟩

/-! ### References -/

/-- `iget` has taken a reference to an inode, at a place where it is or at one that was free. -/
def Got (s s' : State) (ip inum : ℕ) : Prop := ip < NINODE ∧
  (0 < (s.icache ip).ref ∧ (s.icache ip).inum = inum ∧ s' = s.setInode ip { s.icache ip with ref := (s.icache ip).ref + 1 } ∨
    (s.icache ip).ref = 0 ∧ (∀ jp, Live s jp → (s.icache jp).inum ≠ inum) ∧
      s' = s.setInode ip { s.icache ip with inum := inum, ref := 1, busy := false, valid := false })

/-- There is no place for an inode. -/
def CacheFull (s : State) (e : Stop) : Prop := e = .panic "iget: no inodes" ∧ ∀ ip, ip < NINODE → 0 < (s.icache ip).ref

lemma sure_iget {post : ℕ → State → Prop} (hp : ∀ ip s', Got s s' ip inum → post ip s') :
    Sure (CacheFull s) (iget inum) s post := by
  refine wp_act (fun _ a t ht => ⟨trivial, ?_⟩) fun _ e he => ?_
  · split at ht
    · rename_i ip hf
      cases ht
      obtain ⟨h1, h2, -⟩ := List.find?_range_eq_some.mp hf
      simp only [decide_eq_true_eq] at h1
      exact hp _ _ ⟨List.mem_range.mp h2, Or.inl ⟨h1.1, h1.2, rfl⟩⟩
    · rename_i hno
      split at ht
      · rename_i ip hf
        cases ht
        obtain ⟨h1, h2, -⟩ := List.find?_range_eq_some.mp hf
        simp only [decide_eq_true_eq] at h1
        refine hp _ _ ⟨List.mem_range.mp h2, Or.inr ⟨h1, fun jp hl hi => ?_, rfl⟩⟩
        have := List.find?_eq_none.mp hno jp (List.mem_range.mpr hl.1)
        simp only [decide_eq_true_eq] at this
        exact this ⟨hl.2, hi⟩
      · cases ht
  · split at he
    · cases he
    · split at he
      · cases he
      · rename_i hf
        cases he
        refine ⟨rfl, fun ip hip => ?_⟩
        have := List.find?_eq_none.mp hf ip (List.mem_range.mpr hip)
        simp only [decide_eq_true_eq] at this
        omega

end Files

end Os132

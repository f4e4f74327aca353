import Os132.Files.Dir

/-!
# The bytes of a directory

A directory's bytes as a table of slots, and what writing a slot does to the names it binds. Reached from
the two entries of a new directory by adding names that are missing and by clearing slots, a table never
binds a name twice, so that it is a finite map from names, cut to `DIRSIZ` bytes, to inode numbers.
-/

namespace Os132

namespace Files

variable {l src : List UInt8} {i j inum parent off : ℕ} {name other : Name}

/-- The number of slots. -/
def slots (l : List UInt8) : ℕ := l.length / DIRENT

def slot (l : List UInt8) (j : ℕ) : Dirent := Dirent.ofBytes ((l.drop (DIRENT * j)).take DIRENT)

/-- The bytes with `src` written at `off`. -/
def splice (l : List UInt8) (off : ℕ) (src : List UInt8) : List UInt8 := l.take off ++ src ++ l.drop (off + src.length)

/-- The entry is in use and has the name. -/
def Dirent.Binds (de : Dirent) (name : Name) : Prop := de.inum ≠ 0 ∧ namecmp name de.name

instance (de : Dirent) (name : Name) : Decidable (de.Binds name) := inferInstanceAs (Decidable (_ ∧ _))

/-- The first slot that binds a name. -/
def find (l : List UInt8) (name : Name) : Option ℕ := (List.range (slots l)).find? fun j => (slot l j).Binds name

/-- The inode number to which a directory binds a name. -/
def lookup (l : List UInt8) (name : Name) : Option ℕ := (find l name).map fun j => (slot l j).inum

/-- The first slot that is not in use, or the one behind the last. -/
def vacant (l : List UInt8) : ℕ := ((List.range (slots l)).find? fun j => (slot l j).inum = 0).getD (slots l)

/-- The bytes after `dirlink` of a name that is missing. -/
def link (l : List UInt8) (name : Name) (inum : ℕ) : List UInt8 := splice l (DIRENT * vacant l) (Dirent.toBytes inum name)

/-- The bytes after `unlink` has cleared a slot. -/
def clear (l : List UInt8) (j : ℕ) : List UInt8 := splice l (DIRENT * j) (List.replicate DIRENT 0)

/-- The numbers that an entry can hold for an inode. -/
def IsInum (inum : ℕ) : Prop := 0 < inum ∧ inum < 65536

instance (inum : ℕ) : Decidable (IsInum inum) := inferInstanceAs (Decidable (_ ∧ _))

/-- What a directory can contain. -/
inductive Reached : List UInt8 → Prop where
  | dots {i p : ℕ} : IsInum i → IsInum p → Reached (Dirent.toBytes i dot ++ Dirent.toBytes p dotdot)
  | link {b : List UInt8} {nm : Name} {i : ℕ} : Reached b → lookup b nm = none → IsInum i →
    DIRENT * vacant b + DIRENT ≤ MAXFILE * BSIZE → Reached (link b nm i)
  | clear {b : List UInt8} {k : ℕ} : Reached b → k < slots b → Reached (clear b k)

/-- No name is bound twice. -/
def Distinct (l : List UInt8) : Prop := ∀ i j, i < slots l → j < slots l → (slot l i).inum ≠ 0 → (slot l j).inum ≠ 0 →
  namecmp (slot l i).name (slot l j).name → i = j

/-! ### Names -/

lemma length_cname_le (name : Name) : (cname name).length ≤ DIRSIZ := by
  unfold cname
  exact (List.takeWhile_sublist _).length_le.trans (by rw [List.length_take]; exact min_le_left _ _)

lemma cname_pad (n : ℕ) : cname (cname name ++ List.replicate n 0) = cname name := by
  have hpos : ∀ c ∈ cname name, decide (c ≠ 0) = true := fun c hc => by
    exact List.all_eq_true.1 List.all_takeWhile c hc
  have hlen := length_cname_le name
  generalize cname name = t at hpos hlen ⊢
  unfold cname
  rw [List.take_append, List.take_of_length_le hlen, List.takeWhile_append_of_pos hpos]
  cases hr : (List.replicate n (0 : UInt8)).take (DIRSIZ - t.length) with
  | nil => simp
  | cons c rest =>
    have hc : c ∈ List.replicate n (0 : UInt8) := List.mem_of_mem_take (hr ▸ List.mem_cons_self)
    rw [List.eq_of_mem_replicate hc]
    simp

lemma namecmp.symm (h : namecmp name other) : namecmp other name := Eq.symm h

/-! ### Slots -/

@[simp] lemma length_toBytes : (Dirent.toBytes inum name).length = DIRENT := by
  have hlen := length_cname_le name
  unfold Dirent.toBytes DIRENT
  unfold DIRSIZ at *
  simp only [List.length_append, List.length_cons, List.length_nil, List.length_replicate]
  omega

lemma ofBytes_toBytes (name : Name) (h : inum < 65536) : (Dirent.ofBytes (Dirent.toBytes inum name)).inum = inum ∧
    cname (Dirent.ofBytes (Dirent.toBytes inum name)).name = cname name := by
  constructor
  · show (UInt8.ofNat inum).toNat + 256 * (UInt8.ofNat (inum / 256)).toNat = inum
    rw [UInt8.toNat_ofNat', UInt8.toNat_ofNat']
    omega
  · have hlen := length_cname_le name
    show cname ((cname name ++ List.replicate (DIRSIZ - (cname name).length) 0).take DIRSIZ) = cname name
    rw [List.take_of_length_le (by rw [List.length_append, List.length_replicate]; omega)]
    exact cname_pad _

lemma ofBytes_zero : (Dirent.ofBytes (List.replicate DIRENT 0)).inum = 0 := by decide

lemma length_splice (hoff : off ≤ l.length) : (splice l off src).length = max l.length (off + src.length) := by
  unfold splice
  rw [List.length_append, List.length_append, List.length_take, List.length_drop]
  omega

lemma getElem?_splice (hoff : off ≤ l.length) (o : ℕ) :
    (splice l off src)[o]? = if off ≤ o ∧ o < off + src.length then src[o - off]? else l[o]? := by
  unfold splice
  split_ifs with h
  · rw [List.append_assoc, List.getElem?_append_right (by rw [List.length_take]; omega), List.length_take, min_eq_left hoff,
      List.getElem?_append_left (by omega)]
  · by_cases hlo : o < off
    · rw [List.append_assoc, List.getElem?_append_left (by rw [List.length_take]; omega), List.getElem?_take, if_pos hlo]
    · rw [List.getElem?_append_right (by rw [List.length_append, List.length_take]; omega), List.length_append, List.length_take,
        List.getElem?_drop, min_eq_left hoff, show off + src.length + (o - (off + src.length)) = o by omega]

/-- Only the slot that is written changes. -/
lemma slot_splice (hj : DIRENT * j ≤ l.length) (hsrc : src.length = DIRENT) :
    slot (splice l (DIRENT * j) src) i = if i = j then Dirent.ofBytes src else slot l i := by
  have hbytes : ((splice l (DIRENT * j) src).drop (DIRENT * i)).take DIRENT =
      if i = j then src else (l.drop (DIRENT * i)).take DIRENT := by
    apply List.ext_getElem?
    intro o
    rw [List.getElem?_take, List.getElem?_drop, getElem?_splice hj, hsrc]
    unfold DIRENT at hsrc ⊢
    by_cases ho : o < 16
    · rw [if_pos ho]
      by_cases hij : i = j
      · rw [if_pos hij, if_pos (by omega), show 16 * i + o - 16 * j = o by omega]
      · rw [if_neg hij, if_neg (by omega), List.getElem?_take, if_pos ho, List.getElem?_drop]
    · rw [if_neg ho]
      split_ifs
      · rw [List.getElem?_eq_none (by omega)]
      · rw [List.getElem?_take, if_neg ho]
  unfold slot
  rw [hbytes]
  split_ifs <;> rfl

/-- A table whose last slot is complete. -/
def Even (l : List UInt8) : Prop := l.length % DIRENT = 0

instance (l : List UInt8) : Decidable (Even l) := inferInstanceAs (Decidable (_ = _))

lemma Even.length (h : Even l) : l.length = DIRENT * slots l := by
  unfold Even DIRENT at h
  unfold slots DIRENT
  omega

lemma Even.splice (h : Even l) (hj : j ≤ slots l) (hsrc : src.length = DIRENT) :
    Even (splice l (DIRENT * j) src) ∧ slots (splice l (DIRENT * j) src) = max (slots l) (j + 1) := by
  have hl := h.length
  unfold Even slots at *
  rw [length_splice (by unfold DIRENT at *; omega), hsrc]
  unfold DIRENT at *
  omega

lemma find_eq_some : find l name = some j ↔ j < slots l ∧ (slot l j).Binds name ∧ ∀ i, i < j → ¬ (slot l i).Binds name := by
  unfold find
  rw [List.find?_range_eq_some]
  simp only [decide_eq_true_eq, List.mem_range, Bool.not_eq_eq_eq_not, Bool.not_true, decide_eq_false_iff_not]
  tauto

lemma find_eq_none : find l name = none ↔ ∀ j, j < slots l → ¬ (slot l j).Binds name := by
  unfold find
  simp only [List.find?_eq_none, List.mem_range, decide_eq_true_eq]

lemma lookup_eq_none : lookup l name = none ↔ ∀ j, j < slots l → ¬ (slot l j).Binds name := by
  unfold lookup
  rw [Option.map_eq_none_iff, find_eq_none]

lemma Distinct.find (h : Distinct l) (hj : j < slots l) (hb : (slot l j).Binds name) : find l name = some j := by
  rw [find_eq_some]
  refine ⟨hj, hb, fun i hi hbi => ?_⟩
  have := h i j (by omega) hj hbi.1 hb.1 (hbi.2.symm.trans hb.2)
  omega

lemma vacant_le : vacant l ≤ slots l := by
  unfold vacant
  cases hf : (List.range (slots l)).find? fun j => (slot l j).inum = 0 with
  | none => exact le_rfl
  | some j =>
    have := List.mem_range.1 (List.mem_of_find?_eq_some hf)
    exact this.le

lemma vacant_free (h : vacant l < slots l) : (slot l (vacant l)).inum = 0 := by
  unfold vacant at h ⊢
  cases hf : (List.range (slots l)).find? fun j => (slot l j).inum = 0 with
  | none =>
    rw [hf, Option.getD_none] at h
    omega
  | some j => simpa using List.find?_some hf

/-! ### The map -/

/-- Writing one slot changes what the names of its old and new entries are bound to. -/
lemma binds_link (h : Even l) (hi : IsInum inum) (i : ℕ) (hlt : i < slots (link l name inum)) :
    (slot (link l name inum) i).Binds other ↔ i = vacant l ∧ namecmp other name ∨ i ≠ vacant l ∧ i < slots l ∧ (slot l i).Binds other := by
  have hle : DIRENT * vacant l ≤ l.length := by
    have := vacant_le (l := l)
    rw [h.length]
    exact Nat.mul_le_mul_left _ this
  have hs : slots (splice l _ (Dirent.toBytes inum name)) = _ := (h.splice vacant_le length_toBytes).2
  unfold link at hlt ⊢
  rw [hs] at hlt
  rw [slot_splice hle length_toBytes]
  obtain ⟨h1, h2⟩ := ofBytes_toBytes name hi.2
  split_ifs with hv
  · unfold Dirent.Binds namecmp
    rw [h1, h2]
    have := hi.1
    constructor
    · exact fun hb => Or.inl ⟨hv, hb.2⟩
    · rintro (hb | hb)
      · exact ⟨by omega, hb.2⟩
      · exact absurd hv hb.1
  · have hlt' : i < slots l := by
      have := vacant_le (l := l)
      omega
    constructor
    · exact fun hb => Or.inr ⟨hv, hlt', hb⟩
    · rintro (hb | hb)
      · exact absurd hb.1 hv
      · exact hb.2.2

lemma binds_clear (h : Even l) (hj : j < slots l) (i : ℕ) :
    (slot (clear l j) i).Binds other ↔ i ≠ j ∧ (slot l i).Binds other := by
  have hle : DIRENT * j ≤ l.length := by
    rw [h.length]
    exact Nat.mul_le_mul_left _ hj.le
  unfold clear
  rw [slot_splice hle (List.length_replicate ..)]
  split_ifs with hij
  · refine ⟨fun hb => absurd ofBytes_zero hb.1, fun hb => absurd hij hb.1⟩
  · exact ⟨fun hb => ⟨hij, hb⟩, And.right⟩

lemma slots_clear (h : Even l) (hj : j < slots l) : Even (clear l j) ∧ slots (clear l j) = slots l := by
  have hsrc : (List.replicate DIRENT (0 : UInt8)).length = DIRENT := List.length_replicate
  obtain ⟨h1, h2⟩ := h.splice hj.le hsrc
  refine ⟨h1, ?_⟩
  unfold clear
  rw [h2]
  omega

lemma distinct_iff : Distinct l ↔ ∀ name i j, i < slots l → j < slots l → (slot l i).Binds name → (slot l j).Binds name → i = j := by
  constructor
  · exact fun h name i j hi hj hbi hbj => h i j hi hj hbi.1 hbj.1 (hbi.2.symm.trans hbj.2)
  · exact fun h i j hi hj hui huj hn => h (slot l i).name i j hi hj ⟨hui, rfl⟩ ⟨huj, hn⟩

lemma Distinct.lookup (h : Distinct l) (hj : j < slots l) (hb : (slot l j).Binds name) : lookup l name = some (slot l j).inum := by
  unfold Files.lookup
  rw [h.find hj hb, Option.map_some]

lemma lookup_eq_some (h : lookup l name = some i) : ∃ j, j < slots l ∧ (slot l j).Binds name ∧ (slot l j).inum = i := by
  unfold lookup at h
  rw [Option.map_eq_some_iff] at h
  obtain ⟨j, hj, rfl⟩ := h
  obtain ⟨h1, h2, -⟩ := find_eq_some.1 hj
  exact ⟨j, h1, h2, rfl⟩

lemma ne_vacant (hj : j < slots l) (hb : (slot l j).Binds name) : j ≠ vacant l := by
  rintro rfl
  exact hb.1 (vacant_free hj)

lemma slots_link (name : Name) (inum : ℕ) (h : Even l) : Even (link l name inum) ∧ slots (link l name inum) = max (slots l) (vacant l + 1) :=
  h.splice vacant_le length_toBytes

/-- A missing name is bound, and nothing else changes. -/
lemma Distinct.link (h : Distinct l) (he : Even l) (hn : Files.lookup l name = none) (hi : IsInum inum) :
    Distinct (link l name inum) ∧
      ∀ other, Files.lookup (Files.link l name inum) other = if namecmp other name then some inum else Files.lookup l other := by
  have hnone := lookup_eq_none.1 hn
  have hslots := (slots_link name inum he).2
  have hd : Distinct (Files.link l name inum) := by
    rw [distinct_iff] at h ⊢
    intro other i j hi' hj' hbi hbj
    rw [binds_link he hi i hi'] at hbi
    rw [binds_link he hi j hj'] at hbj
    rcases hbi with ⟨rfl, hni⟩ | ⟨-, hlt, hbi⟩ <;> rcases hbj with ⟨rfl, hnj⟩ | ⟨-, hlt', hbj⟩
    · rfl
    · exact absurd ⟨hbj.1, hni.symm.trans hbj.2⟩ (hnone j hlt')
    · exact absurd ⟨hbi.1, hnj.symm.trans hbi.2⟩ (hnone i hlt)
    · exact h other i j hlt hlt' hbi hbj
  refine ⟨hd, fun other => ?_⟩
  split_ifs with ho
  · have hlt : vacant l < slots (Files.link l name inum) := by omega
    rw [hd.lookup hlt ((binds_link he hi _ hlt).2 (Or.inl ⟨rfl, ho⟩))]
    unfold Files.link
    rw [slot_splice (by rw [he.length]; exact Nat.mul_le_mul_left _ vacant_le) length_toBytes, if_pos rfl, (ofBytes_toBytes _ hi.2).1]
  · cases hl : Files.lookup l other with
    | none =>
      rw [lookup_eq_none] at hl ⊢
      intro j hj hb
      rcases (binds_link he hi j hj).1 hb with ⟨-, hb⟩ | ⟨-, hlt, hb⟩
      · exact ho hb
      · exact hl j hlt hb
    | some i =>
      obtain ⟨j, hj, hb, rfl⟩ := lookup_eq_some hl
      have hne := ne_vacant hj hb
      have hlt : j < slots (Files.link l name inum) := by omega
      rw [hd.lookup hlt ((binds_link he hi j hlt).2 (Or.inr ⟨hne, hj, hb⟩))]
      unfold Files.link
      rw [slot_splice (by rw [he.length]; exact Nat.mul_le_mul_left _ vacant_le) length_toBytes, if_neg hne]

/-- The name of a slot that is cleared is no longer bound, and nothing else changes. -/
lemma Distinct.clear (h : Distinct l) (he : Even l) (hj : j < slots l) :
    Distinct (clear l j) ∧ ((slot l j).Binds name → ∀ other,
      Files.lookup (Files.clear l j) other = if namecmp other name then none else Files.lookup l other) := by
  have hslots := (slots_clear he hj).2
  have hd : Distinct (Files.clear l j) := by
    rw [distinct_iff] at h ⊢
    intro other i k hi hk hbi hbk
    rw [hslots] at hi hk
    exact h other i k hi hk ((binds_clear he hj i).1 hbi).2 ((binds_clear he hj k).1 hbk).2
  refine ⟨hd, fun hb other => ?_⟩
  split_ifs with ho
  · rw [lookup_eq_none]
    intro i hi hbi
    obtain ⟨hne, hbi⟩ := (binds_clear he hj i).1 hbi
    rw [hslots] at hi
    exact hne (distinct_iff.1 h other i j hi hj hbi ⟨hb.1, ho.trans hb.2⟩)
  · cases hl : Files.lookup l other with
    | none =>
      rw [lookup_eq_none] at hl ⊢
      intro i hi hbi
      rw [hslots] at hi
      exact hl i hi ((binds_clear he hj i).1 hbi).2
    | some i =>
      obtain ⟨k, hk, hbk, rfl⟩ := lookup_eq_some hl
      have hne : k ≠ j := by
        rintro rfl
        exact ho (hbk.2.trans hb.2.symm)
      rw [hd.lookup (by rw [hslots]; exact hk) ((binds_clear he hj k).2 ⟨hne, hbk⟩)]
      unfold Files.clear
      rw [slot_splice (by rw [he.length]; exact Nat.mul_le_mul_left _ hj.le) (List.length_replicate ..), if_neg hne]

lemma distinct_dots (hi : IsInum inum) (hp : IsInum parent) : Distinct (Dirent.toBytes inum dot ++ Dirent.toBytes parent dotdot) := by
  have h0 : slot (Dirent.toBytes inum dot ++ Dirent.toBytes parent dotdot) 0 = Dirent.ofBytes (Dirent.toBytes inum dot) := by
    unfold slot
    rw [Nat.mul_zero, List.drop_zero, List.take_left' length_toBytes]
  have h1 : slot (Dirent.toBytes inum dot ++ Dirent.toBytes parent dotdot) 1 = Dirent.ofBytes (Dirent.toBytes parent dotdot) := by
    unfold slot
    rw [Nat.mul_one, List.drop_left' length_toBytes, List.take_of_length_le length_toBytes.le]
  have hne : cname dot ≠ cname dotdot := by decide
  have hslots : slots (Dirent.toBytes inum dot ++ Dirent.toBytes parent dotdot) = 2 := by
    unfold slots
    rw [List.length_append, length_toBytes, length_toBytes]
    rfl
  intro i j hi' hj' _ _ hn
  rw [hslots] at hi' hj'
  obtain rfl | rfl : i = 0 ∨ i = 1 := by omega
  · obtain rfl | rfl : j = 0 ∨ j = 1 := by omega
    · rfl
    · rw [h0, h1, namecmp, (ofBytes_toBytes _ hi.2).2, (ofBytes_toBytes _ hp.2).2] at hn
      exact absurd hn hne
  · obtain rfl | rfl : j = 0 ∨ j = 1 := by omega
    · rw [h0, h1, namecmp, (ofBytes_toBytes _ hi.2).2, (ofBytes_toBytes _ hp.2).2] at hn
      exact absurd hn.symm hne
    · rfl

lemma Reached.distinct (h : Reached l) : Distinct l ∧ Even l := by
  induction h with
  | dots hi hp =>
    refine ⟨distinct_dots hi hp, ?_⟩
    unfold Even
    rw [List.length_append, length_toBytes, length_toBytes]
    rfl
  | link _ hn hi _ ih => exact ⟨(ih.1.link ih.2 hn hi).1, (slots_link _ _ ih.2).1⟩
  | clear _ hj ih => exact ⟨(@Distinct.clear _ _ [] ih.1 ih.2 hj).1, (slots_clear ih.2 hj).1⟩

end Files

end Os132

import Os132.Ftable.Failures
import Mathlib.Tactic.FinCases

/-!
# Entries, ends and pages between calls

Where no call is under way, nothing is in hand: the ledgers say that an entry has as many references as descriptors point to it, that
an entry without a descriptor has given up its end or its inode, and that a page without an end has been freed.
-/

namespace Os132

namespace Ftable

section fresh

variable {P : Type}

def After.fresh (l : List FileId) : After → List FileId
  | .openFail _ => l
  | .pipeFail none => l
  | _ => []

/-- The entries that a call has taken and not yet set up. -/
def Pc.fresh : Pc P → List FileId
  | .openFd f _ _ _ => [f]
  | .openSet f _ _ _ => [f]
  | .pipe1 f0 => [f0]
  | .pipe2 f0 f1 => [f0, f1]
  | .pipeSet0 f0 f1 _ => [f0, f1]
  | .pipeSet1 _ f1 _ => [f1]
  | .closing l k => k.fresh l
  | _ => []

/-- An entry in use has a type, or a call is about to give it one. -/
def Fresh (s : State P) : Prop := ∀ f, 0 < (s.file f).ref → (s.file f).type = .none → ∃ p, f ∈ (s.pc p).fresh

/-- A child in the making has a parent. -/
def Cared (s : State P) : Prop := ∀ q, s.life q = .embryo → ∃ p i, s.pc p = .fork q i

variable {s s' : State P} {p q r : P} {f f0 f1 : FileId} {g : Page} {ip : Inode} {rd wr : Bool} {l : List FileId} {k : After}

lemma Undo.fresh (hu : Undo s l k) (hf : f ∈ k.fresh l) : New s f .none := by
  cases k with
  | close => cases hf
  | exit fd => cases hf
  | openFail ip => exact hu f hf
  | pipeFail g =>
    cases g with
    | none => exact hu f hf
    | some g => cases hf

lemma After.fresh_tail (hf : f ∈ k.fresh (f0 :: l)) (hne : f ≠ f0) : f ∈ k.fresh l := by
  cases k with
  | close => cases hf
  | exit fd => cases hf
  | openFail ip => exact (List.mem_cons.1 hf).resolve_left hne
  | pipeFail g =>
    cases g with
    | none => exact (List.mem_cons.1 hf).resolve_left hne
    | some g => cases hf

lemma After.fresh_pipeclose {w : Bool} (hat : At s p (.pipeclose f0 g w l k)) (hf : f ∈ k.fresh (f0 :: l)) : False := by
  cases k with
  | close => cases hf
  | exit fd => cases hf
  | openFail ip => exact hat
  | pipeFail g =>
    cases g with
    | none => exact hat
    | some g => cases hf

lemma After.fresh_iput (hat : At s p (.iput f0 ip l k)) (hf : f ∈ k.fresh (f0 :: l)) : False := by
  cases k with
  | close => cases hf
  | exit fd => cases hf
  | openFail ip => exact hat
  | pipeFail g => exact hat

lemma Fresh.of (h : Fresh s) (hother : ∀ r, r ≠ p → s'.pc r = s.pc r) (hp : ∀ f, 0 < (s'.file f).ref → (s'.file f).type = .none →
    f ∈ (s'.pc p).fresh ∨ (0 < (s.file f).ref ∧ (s.file f).type = .none ∧ f ∉ (s.pc p).fresh)) : Fresh s' := by
  intro f hpos hnone
  rcases hp f hpos hnone with hf | ⟨hpos', hnone', hf⟩
  · exact ⟨p, hf⟩
  · obtain ⟨r, hr⟩ := h f hpos' hnone'
    have hrp : r ≠ p := by
      rintro rfl
      exact hf hr
    exact ⟨r, by rwa [hother r hrp]⟩

lemma Fresh.same (h : Fresh s) (hother : ∀ r, r ≠ p → s'.pc r = s.pc r) (hfile : s'.file = s.file)
    (hsub : ∀ f ∈ (s.pc p).fresh, f ∈ (s'.pc p).fresh) : Fresh s' := by
  apply h.of hother
  intro f hpos hnone
  rw [hfile] at hpos hnone
  by_cases hf : f ∈ (s.pc p).fresh
  · exact Or.inl (hsub f hf)
  · exact Or.inr ⟨hpos, hnone, hf⟩

/-- A step that changes one entry. -/
lemma Fresh.one (h : Fresh s) (hother : ∀ r, r ≠ p → s'.pc r = s.pc r) (hfile : ∀ y, y ≠ f → s'.file y = s.file y)
    (hsub : ∀ y ∈ (s.pc p).fresh, y ≠ f → y ∈ (s'.pc p).fresh)
    (hf : 0 < (s'.file f).ref → (s'.file f).type = .none →
      f ∈ (s'.pc p).fresh ∨ (0 < (s.file f).ref ∧ (s.file f).type = .none ∧ f ∉ (s.pc p).fresh)) : Fresh s' := by
  apply h.of hother
  intro y hpos hnone
  by_cases hy : y = f
  · subst hy
    exact hf hpos hnone
  · rw [hfile y hy] at hpos hnone
    by_cases hmem : y ∈ (s.pc p).fresh
    · exact Or.inl (hsub y hmem hy)
    · exact Or.inr ⟨hpos, hnone, hmem⟩

variable [Fintype P] [DecidableEq P]

lemma Fresh.fileclose (h : Fresh s) (hi : Inv s) (hpc : s.pc p = .closing (f :: l) k) (ha : s.act p = some s') : Fresh s' := by
  have hu : Undo s (f :: l) k := by
    have := hi.place p
    rwa [hpc] at this
  have hpos : 0 < (s.file f).ref := by
    apply Holds.ref (p := p) hi (Or.inl _)
    rw [hpc]
    exact List.mem_cons_self
  have hother := fun r hr => (act_other (r := r) hr ha).2
  have hat := (hi.act ha).place p
  simp only [State.act, hpc, Option.some.injEq] at ha
  have hfile : ∀ y, y ≠ f → s'.file y = s.file y := by
    intro y hy
    rw [← ha, State.fileclose]
    split_ifs
    · rfl
    · exact if_neg hy
    · exact if_neg hy
  have hlast : (s.file f).ref = 1 → (s'.file f).ref = 0 := by
    intro hone
    rw [← ha, State.fileclose, if_neg (by omega), if_neg (by omega)]
    simp [State.goto, State.addRef, State.setFile]
  have hmore : 1 < (s.file f).ref → (s'.file f).type = (s.file f).type := by
    intro hone
    rw [← ha, State.fileclose, if_neg (by omega), if_pos hone]
    simp [State.goto, State.addRef, State.setFile]
  obtain ⟨-, -, hgo⟩ := fileclose_cases hpos ha.symm
  have hnew : ∀ y ∈ (s.pc p).fresh, y ∈ k.fresh (f :: l) := by
    intro y hy
    rwa [hpc] at hy
  apply h.one hother hfile
  · intro y hy hne
    rcases hgo with hgo | ⟨g, w, hgo⟩ | ⟨ip, hgo⟩
    · rw [hgo]
      exact After.fresh_tail (hnew y hy) hne
    · rw [hgo] at hat
      exact (After.fresh_pipeclose hat (hnew y hy)).elim
    · rw [hgo] at hat
      exact (After.fresh_iput hat (hnew y hy)).elim
  · intro hpos' hnone
    have hmany : (s.file f).ref ≠ 1 := fun hone => by
      have := hlast hone
      omega
    exact Or.inr ⟨hpos, by rw [← hmore (by omega), hnone], fun hf => hmany (hu.fresh (hnew f hf)).ref⟩

omit [Fintype P] [DecidableEq P] in
/-- One more reference to an entry. -/
lemma Fresh.more (h : Fresh s) (hpc : (s.pc p).fresh = []) (hpos : 0 < (s.file f).ref)
    (hother : ∀ r, r ≠ p → s'.pc r = s.pc r) (hfile : s'.file = fun y => if y = f then { s.file f with ref := (s.file f).ref + 1 } else s.file y) :
    Fresh s' := by
  apply h.one (f := f) hother
  · intro y hy
    rw [hfile]
    exact if_neg hy
  · intro y hy
    rw [hpc] at hy
    cases hy
  · intro _ hnone
    rw [hfile] at hnone
    simp only [if_true] at hnone
    exact Or.inr ⟨hpos, hnone, by rw [hpc]; simp⟩

omit [Fintype P] in
lemma Fresh.filealloc (h : Fresh s) {x : Pc P} (hx : ∀ y, y = f ∨ y ∈ (s.pc p).fresh → y ∈ x.fresh) :
    Fresh ((s.filealloc p f).goto p x) := by
  have hother : ∀ r, r ≠ p → ((s.filealloc p f).goto p x).pc r = s.pc r := fun r hr => goto_other x hr
  apply h.one (f := f) hother (fun y hy => if_neg hy)
  · intro y hy _
    rw [goto_self]
    exact hx y (Or.inr hy)
  · intro _ _
    rw [goto_self]
    exact Or.inl (hx f (Or.inl rfl))

omit [Fintype P] in
lemma Fresh.setUp (h : Fresh s) {x : Pc P} {y : File} (hy : y.type ≠ .none) (hx : ∀ z ∈ (s.pc p).fresh, z ≠ f → z ∈ x.fresh) :
    Fresh ((s.setUp f y).goto p x) := by
  have hother : ∀ r, r ≠ p → ((s.setUp f y).goto p x).pc r = s.pc r := fun r hr => goto_other x hr
  apply h.one (f := f) hother (fun z hz => if_neg hz)
  · intro z hz hne
    rw [goto_self]
    exact hx z hz hne
  · intro _ hnone
    rw [show ((s.setUp f y).goto p x).file f = y from if_pos rfl] at hnone
    exact absurd hnone hy

theorem Fresh.act (h : Fresh s) (hi : Inv s) (ha : s.act p = some s') : Fresh s' := by
  have hother := fun r hr => (act_other (r := r) hr ha).2
  have hi' := hi.act ha
  cases hpc : s.pc p with
  | idle => simp only [State.act, hpc, reduceCtorEq] at ha
  | openAlloc ip rd wr =>
    simp only [State.act, hpc] at ha
    split at ha <;> cases ha
    · exact h.same hother rfl (by rw [hpc]; simp [Pc.fresh])
    · exact h.filealloc (by rw [hpc]; simp [Pc.fresh])
  | openFd f ip rd wr =>
    simp only [State.act, hpc] at ha
    split at ha <;> cases ha
    · exact h.same hother rfl (by rw [hpc, goto_self]; simp [Pc.fresh, After.fresh])
    · exact h.same hother rfl (by rw [hpc, goto_self]; simp [Pc.fresh])
  | openSet f ip rd wr =>
    simp only [State.act, hpc] at ha
    cases ha
    exact h.setUp (by simp) (by rw [hpc]; simp [Pc.fresh])
  | openPut ip =>
    simp only [State.act, hpc] at ha
    cases ha
    exact h.same hother rfl (by rw [hpc]; simp [Pc.fresh])
  | dup f fd =>
    have hfault := hi'.fault
    simp only [State.act, hpc] at ha
    split at ha <;> cases ha
    · cases hfault
    · exact h.more (f := f) (by rw [hpc]; rfl) (by omega) hother rfl
  | pipe0 =>
    simp only [State.act, hpc] at ha
    split at ha <;> cases ha
    · exact h.same hother rfl (by rw [hpc]; simp [Pc.fresh])
    · exact h.filealloc (by rw [hpc]; simp [Pc.fresh])
  | pipe1 f0 =>
    simp only [State.act, hpc] at ha
    split at ha <;> cases ha
    · exact h.same hother rfl (by rw [hpc, goto_self]; simp [Pc.fresh, After.fresh])
    · exact h.filealloc (by rw [hpc]; simp [Pc.fresh])
  | pipe2 f0 f1 =>
    simp only [State.act, hpc, State.pipePage] at ha
    split at ha
    · cases ha
      exact h.same hother rfl (by rw [hpc, goto_self]; simp [Pc.fresh, After.fresh])
    · rename_i g rest hfree
      have hs := (Option.some.inj ha).symm
      have hself : s'.pc p = .pipeSet0 f0 f1 g := by
        rw [hs]
        exact if_pos rfl
      exact h.same hother (by rw [hs]; rfl) (by rw [hpc, hself]; simp [Pc.fresh])
  | pipeSet0 f0 f1 g =>
    simp only [State.act, hpc] at ha
    cases ha
    exact h.setUp (by simp [State.pipeEnd]) (by rw [hpc]; simp [Pc.fresh])
  | pipeSet1 f0 f1 g =>
    simp only [State.act, hpc] at ha
    cases ha
    exact h.setUp (by simp [State.pipeEnd]) (by rw [hpc]; simp [Pc.fresh])
  | pipeFd0 f0 f1 g =>
    simp only [State.act, hpc] at ha
    split at ha <;> cases ha <;> exact h.same hother rfl (by rw [hpc]; simp [Pc.fresh])
  | pipeFd1 fd0 f0 f1 g =>
    simp only [State.act, hpc] at ha
    split at ha <;> cases ha <;> exact h.same hother rfl (by rw [hpc]; simp [Pc.fresh])
  | closing l k =>
    cases l with
    | nil =>
      have hnil : (s.pc p).fresh = [] := by
        rw [hpc]
        cases k with
        | close => rfl
        | exit fd => rfl
        | openFail ip => rfl
        | pipeFail g => cases g <;> rfl
      simp only [State.act, hpc, Option.some.injEq] at ha
      apply h.same hother _ (by rw [hnil]; simp)
      rw [← ha]
      cases k <;> rfl
    | cons f l => exact h.fileclose hi hpc ha
  | pipeclose f g w l k =>
    simp only [State.act, hpc, State.pipeclose, Option.some.injEq] at ha
    apply h.same hother _ (by rw [hpc]; simp [Pc.fresh])
    split at ha <;> rw [← ha] <;> rfl
  | kfree g l k =>
    simp only [State.act, hpc, State.kfree, Option.some.injEq] at ha
    apply h.same hother _ (by rw [hpc]; simp [Pc.fresh])
    split at ha <;> rw [← ha] <;> rfl
  | iput f ip l k =>
    simp only [State.act, hpc] at ha
    cases ha
    exact h.same hother rfl (by rw [hpc]; simp [Pc.fresh])
  | fork q i =>
    have hfault := hi'.fault
    simp only [State.act, hpc, State.forkFd, State.born] at ha
    split_ifs at ha
    · split at ha
      · cases ha
        exact h.same hother rfl (by rw [hpc]; simp [Pc.fresh])
      · rename_i f hf
        split_ifs at ha <;> cases ha
        · cases hfault
        · exact h.more (f := f) (by rw [hpc]; rfl) (by omega) hother rfl
    · cases ha
      exact h.same hother rfl (by rw [hpc]; simp [Pc.fresh])
  | exit i =>
    simp only [State.act, hpc, State.exitFd, State.gone] at ha
    split_ifs at ha
    · split at ha <;> cases ha <;> exact h.same hother rfl (by rw [hpc]; simp [Pc.fresh])
    · cases ha
      exact h.same hother rfl (by rw [hpc]; simp [Pc.fresh])

/-- A call that begins changes no entry, and nobody who runs user code has a fresh one. -/
lemma enter_other {e : Label P} (he : s.enter e = some s') (hi : Inv s) :
    s'.file = s.file ∧ (∃ p, s.pc p = .idle ∧ ∀ r, r ≠ p → s'.pc r = s.pc r) ∧
      ∀ q, s'.life q = .embryo → s.life q = .embryo ∨ ∃ p i, s'.pc p = .fork q i := by
  have hready : ∀ p, s.Ready p = true → s.pc p = .idle := fun p hr => (ready_iff.1 hr).1
  cases e with
  | opens p ip dir rd wr =>
    cases ip with
    | none =>
      simp only [State.enter] at he
      split_ifs at he with hr
      cases he
      exact ⟨rfl, ⟨p, hready p hr, fun r hr => if_neg hr⟩, fun q hq => Or.inl hq⟩
    | some ip =>
      simp only [State.enter] at he
      split_ifs at he with hr <;> cases he
      · exact ⟨rfl, ⟨p, hready p hr, fun r hr => if_neg hr⟩, fun q hq => Or.inl hq⟩
      · exact ⟨rfl, ⟨p, hready p hr, fun r hr => if_neg hr⟩, fun q hq => Or.inl hq⟩
  | dup p fd =>
    simp only [State.enter] at he
    split_ifs at he with hr
    split at he <;> cases he
    · exact ⟨rfl, ⟨p, hready p hr, fun r hr => if_neg hr⟩, fun q hq => Or.inl hq⟩
    · exact ⟨rfl, ⟨p, hready p hr, fun r hr => rfl⟩, fun q hq => Or.inl hq⟩
  | pipe p =>
    simp only [State.enter] at he
    split_ifs at he with hr
    cases he
    exact ⟨rfl, ⟨p, hready p hr, fun r hr => if_neg hr⟩, fun q hq => Or.inl hq⟩
  | close p fd =>
    simp only [State.enter] at he
    split_ifs at he with hr
    split at he <;> cases he
    · exact ⟨rfl, ⟨p, hready p hr, fun r hr => if_neg hr⟩, fun q hq => Or.inl hq⟩
    · exact ⟨rfl, ⟨p, hready p hr, fun r hr => rfl⟩, fun q hq => Or.inl hq⟩
  | fork p q =>
    simp only [State.enter] at he
    split_ifs at he with hr
    cases he
    refine ⟨rfl, ⟨p, hready p hr.1, fun r hr => if_neg hr⟩, fun t ht => ?_⟩
    by_cases htq : t = q
    · exact Or.inr ⟨p, 0, by rw [htq]; exact if_pos rfl⟩
    · exact Or.inl ((if_neg htq).symm.trans ht)
  | exit p =>
    simp only [State.enter] at he
    split_ifs at he with hr
    cases he
    exact ⟨rfl, ⟨p, hready p hr, fun r hr => if_neg hr⟩, fun q hq => Or.inl hq⟩
  | uses p fd =>
    simp only [State.enter] at he
    split_ifs at he with hr
    split at he <;> cases he
    · rw [hi.touch]
      exact ⟨rfl, ⟨p, hready p hr, fun r hr => rfl⟩, fun q hq => Or.inl hq⟩
    · exact ⟨rfl, ⟨p, hready p hr, fun r hr => rfl⟩, fun q hq => Or.inl hq⟩
  | act p => cases he
  | kalloc => cases he
  | kfree g => cases he

theorem Fresh.step (h : Fresh s) (hi : Inv s) {e : Label P} (hs : Ftable.step e s = some s') : Fresh s' := by
  unfold Ftable.step at hs
  rw [if_neg (by simp [hi.fault])] at hs
  split at hs
  · exact h.act hi hs
  · split at hs <;> cases hs
    · exact h
    · exact h
  · split_ifs at hs
    cases hs
    exact h
  · obtain ⟨hfile, ⟨p, hidle, hother⟩, -⟩ := enter_other hs hi
    apply h.same hother hfile
    rw [hidle]
    simp [Pc.fresh]

omit [Fintype P] in
/-- No call but `fork` makes a child, and `fork` goes on with its own until it lives. -/
lemma life_of_act (ha : s.act p = some s') (hfault : s'.fault = false) (hq : s'.life q = .embryo) :
    s.life q = .embryo ∧ ∀ i, s.pc p = .fork q i → ∃ i', s'.pc p = .fork q i' := by
  unfold State.act at ha
  cases hpc : s.pc p <;>
    simp only [hpc, State.fileclose, State.pipeclose, State.kfree, State.pipePage, State.forkFd, State.exitFd, State.closed] at ha <;>
    (repeat' split at ha) <;> cases ha <;>
    simp [State.goto, State.filealloc, State.setFile, State.addRef, State.setSlot, State.setUp, State.iput, State.setIref, State.addInode,
      State.fail, State.halt, State.setPipe, State.addPage, State.drop, State.born, State.gone] at hq hfault ⊢
  all_goals
    first
    | exact hq
    | grind

theorem Cared.step (h : Cared s) (hi : Inv s) {e : Label P} (hs : Ftable.step e s = some s') : Cared s' := by
  have hfault := (hi.step hs).fault
  unfold Ftable.step at hs
  rw [if_neg (by simp [hi.fault])] at hs
  split at hs
  · rename_i p
    intro q hq
    obtain ⟨hq', hgo⟩ := life_of_act hs hfault hq
    obtain ⟨r, i, hr⟩ := h q hq'
    by_cases hrp : r = p
    · subst hrp
      exact ⟨r, hgo i hr⟩
    · exact ⟨r, i, by rw [(act_other hrp hs).2, hr]⟩
  · split at hs <;> cases hs
    · exact h
    · exact h
  · split_ifs at hs
    cases hs
    exact h
  · obtain ⟨-, ⟨p, hidle, hother⟩, hlife⟩ := enter_other hs hi
    intro q hq
    rcases hlife q hq with hq' | hq'
    · obtain ⟨r, i, hr⟩ := h q hq'
      have hrp : r ≠ p := by
        rintro rfl
        rw [hidle] at hr
        cases hr
      exact ⟨r, i, by rw [hother r hrp, hr]⟩
    · exact hq'

end fresh

section counts

variable {P : Type} [Fintype P] [DecidableEq P] {s s' : State P} {p : P} {n : ℕ}

/-- What the table says where no call is under way. -/
structure Exact (s : State P) : Prop where
  refs : ∀ f, (s.file f).ref = (Finset.univ.filter fun x : P × Fd => s.life x.1 = .live ∧ s.ofile x.1 x.2 = some f).card
  released : ∀ f, s.setups f = s.drops f + if 0 < (s.file f).ref then 1 else 0
  inodes : ∀ ip, s.iref ip = (Finset.univ.filter fun f => (s.file f).type = .inode ∧ (s.file f).ip = ip).card
  ends : ∀ g w, (Finset.univ.filter fun f => (s.file f).type = .pipe ∧ (s.file f).pipe = g ∧ (s.file f).writable = w).card =
    s.openEnds (g, w)
  pages : ∀ g, s.made g = s.freed g + if ∃ f, (s.file f).type = .pipe ∧ (s.file f).pipe = g then 1 else 0
  free : s.free.Nodup ∧ ∀ g ∈ s.free, ∀ f, ¬ ((s.file f).type = .pipe ∧ (s.file f).pipe = g)

/-- The last call of `p` has left the counts, the pages and the descriptors as they were. -/
structure Undone (s : State P) (p : P) : Prop where
  refs : ∀ f, (s.call p).refs f = 0
  pages : ∀ g, (s.call p).pages g = 0
  inodes : ∀ ip, (s.call p).inodes ip = 0
  table : s.ofile p = (s.call p).table

omit [DecidableEq P] in
lemma start_inv (h : Start s) : Inv s := by
  have hslot : ∀ x : P × Fd, s.slot x = [] := by
    intro x
    simp [State.slot, slotRef, h.ofile]
  exact {
    refs := ⟨fun f => by simp [h.file, h.pc, hslot, Pc.hands]⟩
    inodes := ⟨fun f => by simp [h.iref, h.file, h.pc, Pc.inodes, File.inodes]⟩
    ends := ⟨fun x => by simp [State.openEnds, h.pipe, h.file, h.pc, Pc.ends, File.ends]⟩
    frees := ⟨fun g => by simp [State.shutPipes, h.pipe, h.pc, Pc.frees]⟩
    releases := ⟨fun f => by simp [h.history.1, h.file, h.pc, Pc.releases, State.typed]⟩
    typed := fun f hf => absurd (h.file f).1 hf
    pages := fun g => by simp [h.history.2.1, h.pipe]
    nodup := h.free
    unpiped := fun g _ => h.pipe g
    fault := h.fault
    busy := fun p _ => h.pc p
    unused := fun p _ => h.ofile p
    cleared := fun p fd _ => h.ofile p fd
    parent := fun p p' q i i' hp => by
      rw [h.pc] at hp
      cases hp
    place := fun p => by
      rw [h.pc]
      trivial }

/-- The four invariants hold along every run. -/
lemma all_run (r : Lts.Run (Start (P := P)) step n) :
    ∀ k, k ≤ n → Inv (r.state k) ∧ Records (r.state k) ∧ Fresh (r.state k) ∧ Cared (r.state k) := by
  apply r.invariant (P := fun s => Inv s ∧ Records s ∧ Fresh s ∧ Cared s)
  · intro s h
    refine ⟨start_inv h, ⟨fun p => ?_, fun p q i _ => h.history.2.2 q⟩, fun f hf => ?_, fun q hq => ?_⟩
    · rw [h.pc]
      exact fits_of_not (h.history.2.2 p) rfl
    · rw [(h.file f).2] at hf
      omega
    · exact absurd hq (h.life q)
  · rintro s e s' ⟨hi, hr, hf, hc⟩ hs
    exact ⟨hi.step hs, hr.step hi hs, hf.step hi hs, hc.step hi hs⟩

lemma sum_indicator {β : Type} [Fintype β] {Q : β → Prop} [DecidablePred Q] {φ : β → ℕ}
    (hφ : ∀ x, φ x = if Q x then 1 else 0) : ∑ x, φ x = (Finset.univ.filter Q).card := by
  rw [Finset.card_filter]
  exact Finset.sum_congr rfl fun x _ => hφ x

section Idle

omit [DecidableEq P]

lemma Inv.typed_iff (h : Inv s) (hf : Fresh s) (hidle : ∀ p, s.pc p = .idle) (f : FileId) :
    (s.file f).type = .none ↔ ¬ 0 < (s.file f).ref := by
  constructor
  · intro hnone hpos
    obtain ⟨p, hp⟩ := hf f hpos hnone
    rw [hidle p] at hp
    cases hp
  · intro hzero
    by_contra hne
    exact hzero (h.typed f hne)

/-- Between calls only live processes have descriptors. -/
lemma Inv.live_of_ofile (h : Inv s) (hc : Cared s) (hidle : ∀ p, s.pc p = .idle) {p : P} {fd : Fd} {f : FileId}
    (ho : s.ofile p fd = some f) : s.life p = .live := by
  cases hl : s.life p with
  | unused =>
    rw [h.unused p hl fd] at ho
    cases ho
  | embryo =>
    obtain ⟨r, i, hr⟩ := hc p hl
    rw [hidle r] at hr
    cases hr
  | live => rfl

lemma Inv.card_ends (h : Inv s) (hidle : ∀ p, s.pc p = .idle) (g : Page) (w : Bool) :
    (Finset.univ.filter fun f => (s.file f).type = .pipe ∧ (s.file f).pipe = g ∧ (s.file f).writable = w).card =
      s.openEnds (g, w) := by
  have heq := h.ends.eq (g, w)
  rw [sum_indicator (Q := fun f : FileId => (s.file f).type = .pipe ∧ (s.file f).pipe = g ∧ (s.file f).writable = w)] at heq
  · simpa [hidle, Pc.ends] using heq.symm
  · intro f
    simp only [File.ends]
    split_ifs <;> simp_all

/-- Between calls a pipe has an open end. -/
lemma Inv.isOpen_of_pipe (h : Inv s) (hidle : ∀ p, s.pc p = .idle) {g : Page} {b : Pipe} (hb : s.pipe g = some b) :
    ∃ w, b.isOpen w = true := by
  have hfull : b ≠ ⟨false, false⟩ := by
    rintro rfl
    have := h.frees.eq g
    simp [State.shutPipes, hb, hidle, Pc.frees] at this
  by_contra hne
  push Not at hne
  apply hfull
  have h0 := hne false
  have h1 := hne true
  simp only [Pipe.isOpen, Bool.false_eq_true, if_false, if_true, Bool.not_eq_true] at h0 h1
  cases b
  simp_all

/-- Between calls a page is a pipe when one of its ends is in an entry. -/
lemma Inv.pipe_iff (h : Inv s) (hidle : ∀ p, s.pc p = .idle) (g : Page) :
    (s.pipe g).isSome = true ↔ ∃ f, (s.file f).type = .pipe ∧ (s.file f).pipe = g := by
  constructor
  · intro hsome
    obtain ⟨b, hb⟩ := Option.isSome_iff_exists.1 hsome
    obtain ⟨w, hw⟩ := h.isOpen_of_pipe hidle hb
    have hcard := h.card_ends hidle g w
    rw [State.openEnds, hb] at hcard
    simp only [hw, if_true] at hcard
    obtain ⟨f, hf⟩ := Finset.card_pos.1 (by rw [hcard]; exact Nat.one_pos)
    exact ⟨f, (Finset.mem_filter.1 hf).2.1, (Finset.mem_filter.1 hf).2.2.1⟩
  · rintro ⟨f, htype, rfl⟩
    have hend : ((s.file f).pipe, (s.file f).writable) ∈ (s.file f).ends := by simp [File.ends, htype]
    obtain ⟨b, hb, -⟩ := open_of_end (h.ends.right_pos hend)
    simp [hb]

/-- Nothing is in hand. -/
lemma Inv.exact (h : Inv s) (hf : Fresh s) (hc : Cared s) (hidle : ∀ p, s.pc p = .idle) : Exact s := by
  exact {
    refs := by
      intro f
      have heq := h.refs.eq f
      rw [sum_indicator (Q := fun x : P × Fd => s.life x.1 = .live ∧ s.ofile x.1 x.2 = some f)] at heq
      · simpa [hidle, Pc.hands] using heq
      · rintro ⟨p, fd⟩
        simp only [State.slot, slotRef, hidle, Pc.skip, reduceCtorEq, if_false]
        cases ho : s.ofile p fd with
        | none => simp
        | some y => simp [h.live_of_ofile hc hidle ho, List.count_singleton]
    released := by
      intro f
      have heq := h.releases.eq f
      rw [Finset.sum_eq_single_of_mem f (Finset.mem_univ f)] at heq
      · simp only [hidle, Pc.releases, List.count_nil, Finset.sum_const_zero, State.typed, h.typed_iff hf hidle] at heq
        rw [heq]
        split_ifs <;> simp_all
      · intro y _ hy
        simp only [State.typed]
        split_ifs <;> simp [hy]
    inodes := by
      intro ip
      have heq := h.inodes.eq ip
      rw [sum_indicator (Q := fun f : FileId => (s.file f).type = .inode ∧ (s.file f).ip = ip)] at heq
      · simpa [hidle, Pc.inodes] using heq
      · intro f
        simp only [File.inodes]
        split_ifs <;> simp_all
    ends := h.card_ends hidle
    pages := by
      intro g
      rw [h.pages g]
      simp only [h.pipe_iff hidle g]
    free := ⟨h.nodup, fun g hg f hf => by
      have hsome := (h.pipe_iff hidle g).2 ⟨f, hf⟩
      rw [h.unpiped g hg] at hsome
      cases hsome⟩ }

end Idle

/-- Every interleaving of the calls: no panic and no use of a pipe that has been freed; an `open` or a `pipe` that fails leaves
everything as it was; and between calls each entry has a reference for each descriptor that points to it, has been released as
often as it was set up, less the one that is in use, and a page has been freed as often as it was made a pipe, less the one
whose ends are in entries. -/
theorem ftable_sound (r : Lts.Run (Start (P := P)) step n) (k : ℕ) (hk : k ≤ n) :
    (r.state k).fault = false ∧
      (∀ p, (r.state k).pc p = .idle → ((r.state k).call p).failed = true → Undone (r.state k) p) ∧
      ((∀ p, (r.state k).pc p = .idle) → Exact (r.state k)) := by
  obtain ⟨hi, hr, hf, hc⟩ := all_run r k hk
  refine ⟨hi.fault, fun p hp hfail => ?_, hi.exact hf hc⟩
  obtain ⟨hn, ht⟩ := (hr.fits p).idle hp hfail
  exact ⟨fun f => by simp [hn.refs], fun g => by simp [hn.pages], fun ip => by simp [hn.inodes], ht.symm⟩

/-- A machine with one process and one free page. -/
def boot : State (Fin 2) :=
  { file := fun _ => ⟨.none, 0, false, false, 0, 0, 0⟩
    pipe := fun _ => none
    free := [7]
    iref := fun _ => 0
    life := fun p => if p = 0 then .live else .unused
    ofile := fun _ _ => none
    pc := fun _ => .idle
    fault := false
    setups := fun _ => 0
    drops := fun _ => 0
    made := fun _ => 0
    freed := fun _ => 0
    call := fun _ => ⟨fun _ => none, fun _ => 0, fun _ => 0, fun _ => 0, false⟩ }

lemma start_boot : Start boot where
  file := fun _ => ⟨rfl, rfl⟩
  pipe := fun _ => rfl
  free := by decide
  iref := fun _ => rfl
  ofile := fun _ _ => rfl
  pc := fun _ => rfl
  life := by decide
  fault := rfl
  history := ⟨fun _ => ⟨rfl, rfl⟩, fun _ => ⟨rfl, rfl⟩, fun _ => rfl⟩

instance : Inhabited (Label (Fin 2)) := ⟨.kalloc⟩

/-- A process makes a pipe and forks: either end has two references. -/
theorem ftable_sound_fork : ∃ r : Lts.Run (Start (P := Fin 2)) step 26,
    Exact (r.state 26) ∧ ∀ f : FileId, f.val < 2 → ((r.state 26).file f).ref = 2 := by
  obtain ⟨r, -, hend⟩ := Lts.exists_run_of_check (step (P := Fin 2))
    ([.pipe 0] ++ List.replicate 7 (.act 0) ++ [.fork 0 1] ++ List.replicate 17 (.act 0)) (fun _ _ _ => true)
    (fun s => s.Ready 0 && s.Ready 1 && (s.file ⟨0, by decide⟩).ref == 2 && (s.file ⟨1, by decide⟩).ref == 2)
    start_boot (by decide +kernel)
  replace hend : ((r.state 26).Ready 0 && (r.state 26).Ready 1 && ((r.state 26).file ⟨0, by decide⟩).ref == 2 &&
    ((r.state 26).file ⟨1, by decide⟩).ref == 2) = true := hend
  simp only [Bool.and_eq_true, beq_iff_eq, ready_iff] at hend
  obtain ⟨⟨⟨⟨h0, -⟩, ⟨h1, -⟩⟩, hf0⟩, hf1⟩ := hend
  refine ⟨r, (ftable_sound r 26 (le_refl 26)).2.2 fun p => ?_, fun f hf => ?_⟩
  · fin_cases p
    · exact h0
    · exact h1
  · obtain ⟨v, hv⟩ := f
    have hv' : v = 0 ∨ v = 1 := by
      simp only at hf
      omega
    rcases hv' with rfl | rfl
    · exact hf0
    · exact hf1

end counts

end Ftable

end Os132

import Os132.Ftable.Calls

/-!
# Every step of `close` keeps the books

`fileclose` gives up a reference. The last one takes the end of the pipe or the inode out of the entry and into the hands of the
process, which then calls `pipeclose` or `iput`.
-/

namespace Os132

namespace Ftable

variable {P : Type} [Fintype P] [DecidableEq P] {s s' : State P} {p q r : P} {f : FileId} {g : Page} {l : List FileId} {k : After}

omit [DecidableEq P] in
lemma Inv.closing_alone (h : Inv s) (hpc : s.pc p = .closing (f :: l) k) (hone : (s.file f).ref = 1) : f ∉ l := by
  intro hf
  have hlt : 1 < (s.file f).ref := by
    apply h.refs.left_twice (i := p)
    rw [hpc]
    have := List.count_pos_iff.2 hf
    simp only [Pc.hands, List.count_cons_self]
    omega
  omega

omit [Fintype P] [DecidableEq P] in
lemma Undo.shared (hu : Undo s (f :: l) k) (hone : (s.file f).ref ≠ 1) : Undo s' l k := by
  unfold Undo at hu ⊢
  split at hu
  · exact absurd (hu f List.mem_cons_self).ref hone
  · exact absurd (hu f List.mem_cons_self).ref hone
  · rcases hu with ⟨f0, f1, hl, h0, h1⟩ | ⟨f1, hl, h1, hg⟩
    · exact absurd ((List.cons.inj hl).1 ▸ h0.ref) hone
    · exact absurd ((List.cons.inj hl).1 ▸ h1.ref) hone
  · trivial

omit [Fintype P] [DecidableEq P] in
lemma Undo.tail (hu : Undo s (f :: l) k) (hnone : (s.file f).type = .none) (hsame : ∀ y ∈ l, s'.file y = s.file y) :
    Undo s' l k := by
  unfold Undo at hu ⊢
  split at hu
  · exact fun y hy => (hu y (List.mem_cons_of_mem _ hy)).of_same (hsame y hy)
  · exact fun y hy => (hu y (List.mem_cons_of_mem _ hy)).of_same (hsame y hy)
  · have htype : (s.file f).type = .pipe := by
      rcases hu with ⟨f0, f1, hl, h0, h1⟩ | ⟨f1, hl, h1, hg⟩
      · exact (List.cons.inj hl).1 ▸ h0.type
      · exact (List.cons.inj hl).1 ▸ h1.type
    rw [hnone] at htype
    cases htype
  · trivial

omit [Fintype P] [DecidableEq P] in
/-- A call that fails after `pipealloc` shuts the ends in their order. -/
lemma Undo.pipeclose (hu : Undo s (f :: l) k) (htype : (s.file f).type = .pipe) (hsame : ∀ y ∈ l, s'.file y = s.file y)
    (hpipe : s'.pipe = s.pipe) : At s' p (.pipeclose f (s.file f).pipe (s.file f).writable l k) := by
  have hnew : ¬ New s f .none := fun hn => by
    have := hn.type
    rw [htype] at this
    cases this
  cases k with
  | close => trivial
  | exit fd => trivial
  | openFail ip => exact hnew (hu f List.mem_cons_self)
  | pipeFail g =>
    cases g with
    | none => exact hnew (hu f List.mem_cons_self)
    | some g =>
      rcases hu with ⟨f0, f1, hl, h0, h1⟩ | ⟨f1, hl, h1, hg⟩
      · obtain ⟨rfl, rfl⟩ := List.cons.inj hl
        exact ⟨h0.pipe, Or.inl ⟨h0.writable, f1, rfl, by
          rw [h0.pipe]
          exact h1.of_same (hsame f1 (by simp))⟩⟩
      · obtain ⟨rfl, rfl⟩ := List.cons.inj hl
        exact ⟨h1.pipe, Or.inr ⟨h1.writable, rfl, by rw [hpipe, h1.pipe, hg]⟩⟩

omit [Fintype P] [DecidableEq P] in
/-- No call that fails has given an entry an inode. -/
lemma Undo.iput (hu : Undo s (f :: l) k) (htype : (s.file f).type = .inode) : At s' p (.iput f (s.file f).ip l k) := by
  have hnew : ∀ t, New s f t → t = .inode := fun t hn => hn.type.symm.trans htype
  cases k with
  | close => trivial
  | exit fd => trivial
  | openFail ip => cases hnew _ (hu f List.mem_cons_self)
  | pipeFail g =>
    cases g with
    | none => cases hnew _ (hu f List.mem_cons_self)
    | some g =>
      rcases hu with ⟨f0, f1, hl, h0, h1⟩ | ⟨f1, hl, h1, hg⟩
      · obtain ⟨rfl, rfl⟩ := List.cons.inj hl
        cases hnew _ h0.toNew
      · obtain ⟨rfl, rfl⟩ := List.cons.inj hl
        cases hnew _ h1.toNew

/-- The last reference goes: the end or the inode of the entry is in hand. -/
lemma Inv.giveUp (h : Inv s) {x : Pc P} (hpc : s.pc p = .closing (f :: l) k) (hone : (s.file f).ref = 1)
    (htype : (s.file f).type ≠ .none) (hh : x.hands = l) (hsk : x.skip = k.skip)
    (hinodes : ∀ y, x.inodes.count y = (s.file f).inodes.count y + k.inodes.count y) (hends : x.ends = (s.file f).ends)
    (hfrees : x.frees = []) (hrel : x.releases = [f]) (hfork : ∀ q i, x ≠ .fork q i) (hcl : x.cleared = k.cleared)
    (hat : At ((s.setFile f { s.file f with ref := 0, type := .none }).goto p x) p x) :
    Inv ((s.setFile f { s.file f with ref := 0, type := .none }).goto p x) := by
  have hself : ((s.setFile f { s.file f with ref := 0, type := .none }).goto p x).pc p = x := goto_self x
  have hfile : ((s.setFile f { s.file f with ref := 0, type := .none }).goto p x).file f = { s.file f with ref := 0, type := .none } :=
    if_pos rfl
  have hslot : ((s.setFile f { s.file f with ref := 0, type := .none }).goto p x).slot = s.slot :=
    slot_goto (s := s.setFile f _) (by rw [show (s.setFile f _).pc p = s.pc p from rfl, hpc, hsk]; rfl)
  have hmine : Holds s p f := by
    apply Or.inl
    rw [hpc]
    simp [Pc.hands]
  have htyped : s.typed f = [f] := if_neg htype
  apply h.change (p := p) (f := f) (y := (p, ⟨0, by decide⟩))
  exact {
    live := h.live (by rw [hpc]; simp)
    life := rfl
    ofile := fun _ _ => Or.inl rfl
    pc := fun r hr => goto_other x hr
    fork := fun q i hq => absurd (hself.symm.trans hq) (hfork q i)
    cleared := by
      rw [hself, hcl]
      intro d hd
      exact h.cleared p d (by rw [hpc]; exact hd)
    fault := h.fault
    file := fun y hy => if_neg hy
    mine := Or.inr (Or.inr hmine)
    pipe := fun _ => Or.inl rfl
    slot := fun y _ => by rw [hslot]
    refs := fun y => by
      rw [hslot, hself, hpc, hh]
      by_cases hy : y = f
      · subst hy
        rw [hfile, hone]
        simp only [Pc.hands, List.count_cons_self]
        omega
      · have hy' : f ≠ y := fun he => hy he.symm
        rw [show ((s.setFile f { s.file f with ref := 0, type := .none }).goto p x).file y = s.file y from if_neg hy]
        simp [Pc.hands, hy']
    inodes := fun y => by
      rw [hself, hfile, hinodes, hpc]
      simp only [Pc.inodes, File.inodes, State.goto, State.setFile, reduceCtorEq, if_false, List.count_nil]
      omega
    ends := fun y => by
      rw [hself, hfile, hends, hpc]
      simp [Pc.ends, File.ends, State.goto, State.setFile, State.openEnds]
    frees := fun y => by
      rw [hself, hfrees, hpc]
      rfl
    releases := fun y => by
      rw [hself, hrel, hpc, htyped]
      simp only [Pc.releases, State.typed, State.goto, State.setFile, if_true, List.count_nil]
      omega
    typed := by
      rw [hfile]
      exact fun hne => absurd rfl hne
    pool := ⟨h.pages, h.nodup, h.unpiped⟩
    place := by rwa [hself] }

lemma Inv.act_fileclose (h : Inv s) (hpc : s.pc p = .closing (f :: l) k) (ha : s.act p = some s') : Inv s' := by
  have hl := h.live (p := p) (by rw [hpc]; simp)
  have hu : Undo s (f :: l) k := by
    have := h.place p
    rwa [hpc] at this
  have hmine : Holds s p f := by
    apply Or.inl
    rw [hpc]
    simp [Pc.hands]
  have hpos := hmine.ref h
  have hcl : ∀ d : Fd, d < k.cleared → s.ofile p d = none := fun d hd => h.cleared p d (by rw [hpc]; exact hd)
  have hlike : (s.pc p).Like (.closing l k) := by
    rw [hpc]
    exact ⟨rfl, rfl, rfl, rfl, by simp⟩
  have hrest : ∀ y, y ≠ f → (s.pc p).hands.count y = (Pc.closing l k : Pc P).hands.count y := by
    intro y hy
    have hy' : f ≠ y := fun he => hy he.symm
    rw [hpc]
    simp [Pc.hands, hy']
  have hcount : (s.pc p).hands.count f = l.count f + 1 := by
    rw [hpc]
    exact List.count_cons_self
  simp only [State.act, hpc, State.fileclose, Option.some.injEq] at ha
  split_ifs at ha with h0 h1
  · omega
  · rw [← ha]
    have hinv : Inv ((s.setFile f { s.file f with ref := (s.file f).ref - 1 }).goto p (.closing l k)) := by
      apply h.setRef hl (Or.inr hmine) (fun _ => by omega) hlike hcl (by rw [hpc]; rfl) _ hrest
      · exact hu.shared h1.ne'
      · rw [hcount]
        simp only [Pc.hands]
        omega
    exact hinv.called ⟨_, rfl⟩
  · have hone : (s.file f).ref = 1 := by omega
    have hfl := h.closing_alone hpc hone
    have hsame : ∀ (y : File) (x : Pc P), ∀ f' ∈ l, ((s.setFile f y).goto p x).file f' = s.file f' := by
      intro y x f' hf'
      apply if_neg
      rintro rfl
      exact hfl hf'
    rw [← ha]
    cases htype : (s.file f).type with
    | none =>
      have hinv : Inv ((s.setFile f { s.file f with ref := 0 }).goto p (.closing l k)) := by
        apply h.setRef hl (Or.inr hmine) (fun hne => absurd htype hne) hlike hcl (by rw [hpc]; rfl) _ hrest
        · exact hu.tail htype (hsame _ _)
        · rw [hcount, hone]
          simp only [Pc.hands]
          omega
      rw [show ({ s.file f with ref := 0 } : File) = { s.file f with ref := 0, type := .none } by rw [← htype]] at hinv
      exact hinv.called ⟨_, rfl⟩
    | pipe =>
      have hinv := h.giveUp (x := .pipeclose f (s.file f).pipe (s.file f).writable l k) hpc hone (by rw [htype]; simp) rfl rfl
        (by simp [Pc.inodes, File.inodes, htype]) (by simp [Pc.ends, File.ends, htype]) rfl rfl (by simp) rfl
        (Undo.pipeclose hu htype (hsame _ _) rfl)
      exact hinv.called ⟨_, rfl⟩
    | inode =>
      have hinv := h.giveUp (x := .iput f (s.file f).ip l k) hpc hone (by rw [htype]; simp) rfl rfl
        (by
          intro y
          simp only [Pc.inodes, File.inodes, htype, if_true, List.count_cons, List.count_nil]
          omega)
        (by simp [Pc.ends, File.ends, htype]) rfl rfl (by simp) rfl (Undo.iput hu htype)
      exact hinv.called ⟨_, rfl⟩

lemma Inv.act_closed (h : Inv s) (hpc : s.pc p = .closing [] k) (ha : s.act p = some s') : Inv s' := by
  have hl := h.live (p := p) (by rw [hpc]; simp)
  have hcl : ∀ d : Fd, d < k.cleared → s.ofile p d = none := fun d hd => h.cleared p d (by rw [hpc]; exact hd)
  have hu : Undo s [] k := by
    have := h.place p
    rwa [hpc] at this
  simp only [State.act, hpc, Option.some.injEq] at ha
  rw [← ha]
  cases k with
  | close =>
    apply h.goto hl (by rw [hpc]; rfl) (by rw [hpc]; rfl) (by rw [hpc]; exact ⟨rfl, rfl, rfl, rfl, by simp⟩) (not_lt_cleared rfl)
    trivial
  | exit fd =>
    apply h.setSlot hl (by rw [hpc]; exact ⟨rfl, rfl, rfl, rfl, by simp⟩)
    case hcl =>
      intro d hd
      by_cases he : d = fd
      · exact if_pos ⟨rfl, he⟩
      · rw [show (s.setSlot p fd none).ofile p d = s.ofile p d from if_neg fun hh => he hh.2]
        apply hcl
        have hne : (d : ℕ) ≠ fd := fun hh => he (Fin.ext hh)
        simp only [Pc.cleared] at hd
        simp only [After.cleared]
        omega
    case hsk =>
      intro d hd
      rw [hpc]
      simp [Pc.skip, After.skip, hd.symm]
    case hrefs =>
      intro y
      rw [hpc]
      simp [Pc.hands, Pc.skip, After.skip, slotRef]
    case hat => trivial
  | openFail ip =>
    apply h.goto hl (by rw [hpc]; rfl) (by rw [hpc]; rfl) (by rw [hpc]; exact ⟨rfl, rfl, rfl, rfl, by simp⟩) (not_lt_cleared rfl)
    trivial
  | pipeFail g =>
    have hinv : Inv (s.goto p .idle) := by
      apply h.goto hl (by rw [hpc]; rfl) (by rw [hpc]; rfl) (by rw [hpc]; exact ⟨rfl, rfl, rfl, rfl, by simp⟩) (not_lt_cleared rfl)
      trivial
    exact hinv.called ⟨_, rfl⟩

lemma Inv.act_iput (h : Inv s) {ip : Inode} (hpc : s.pc p = .iput f ip l k) (ha : s.act p = some s') : Inv s' := by
  have hl := h.live (p := p) (by rw [hpc]; simp)
  have hat := h.place p
  rw [hpc] at hat
  simp only [State.act, hpc, Option.some.injEq] at ha
  rw [← ha]
  apply h.iput (x := .closing l k) (i := ip) (l := [f]) hl
  case hpos =>
    rw [hpc]
    exact List.mem_cons_self
  case hh => rw [hpc]; rfl
  case hsk => rw [hpc]; rfl
  case hinodes =>
    intro y
    rw [hpc]
    simp only [Pc.inodes, List.count_cons, List.count_nil]
    omega
  case hends => rw [hpc]; rfl
  case hfrees => rw [hpc]; rfl
  case hdrops =>
    intro y
    by_cases hy : y = f
    · subst hy
      simp [State.goto, State.drop, State.iput, State.setIref, State.addInode]
    · have hy' : f ≠ y := fun he => hy he.symm
      simp [State.goto, State.drop, State.iput, State.setIref, State.addInode, hy, hy']
  case hrel =>
    rw [hpc]
    simp [Pc.releases]
  case hfork => simp
  case hcl => exact fun d hd => h.cleared p d (by rw [hpc]; exact hd)
  case hat =>
    cases k with
    | close => trivial
    | exit fd => trivial
    | openFail ip => exact hat.elim
    | pipeFail g => exact hat.elim
  case hs => rfl

omit [Fintype P] [DecidableEq P] in
lemma open_of_end {w : Bool} (he : 0 < s.openEnds (g, w)) : ∃ b, s.pipe g = some b ∧ b.isOpen w = true := by
  simp only [State.openEnds] at he
  split at he
  · rename_i b hb
    exact ⟨b, hb, by
      by_contra hne
      rw [if_neg hne] at he
      omega⟩
  · omega

omit [DecidableEq P] in
lemma Inv.pipeclose_place (h : Inv s) {w : Bool} {b : Pipe} {x : Pc P} (hat : At s p (.pipeclose f g w l k))
    (hb : s.pipe g = some b) (hopen : b.isOpen w = true) (hfile : s'.file = s.file) (hpipe : s'.pipe g = some (b.shut w))
    (hx : (x = .kfree g l k ∧ b.shut w = ⟨false, false⟩) ∨ (x = .closing l k ∧ b.shut w ≠ ⟨false, false⟩)) : At s' p x := by
  cases k with
  | close => rcases hx with ⟨rfl, -⟩ | ⟨rfl, -⟩ <;> trivial
  | exit fd => rcases hx with ⟨rfl, -⟩ | ⟨rfl, -⟩ <;> trivial
  | openFail ip => exact hat.elim
  | pipeFail g' =>
    cases g' with
    | none => exact hat.elim
    | some g' =>
      obtain ⟨rfl, ⟨rfl, f1, rfl, h1⟩ | ⟨rfl, rfl, hg⟩⟩ := hat
      · -- the write end is still in an entry, so it is open
        obtain ⟨b', hb', hw⟩ := open_of_end (h.ends.right_pos h1.mem)
        have hshut : b.shut false = ⟨false, true⟩ := by
          rw [hb] at hb'
          cases hb'
          simp only [Pipe.isOpen, if_true] at hw
          simp [Pipe.shut, hw]
        rcases hx with ⟨rfl, hs⟩ | ⟨rfl, -⟩
        · rw [hshut] at hs
          cases hs
        · exact Or.inr ⟨f1, rfl, h1.of_same (by rw [hfile]), by rw [hpipe, hshut]⟩
      · rw [hb] at hg
        cases hg
        rcases hx with ⟨rfl, -⟩ | ⟨rfl, hs⟩
        · exact ⟨rfl, rfl⟩
        · exact absurd rfl hs

lemma Inv.act_pipeclose (h : Inv s) {w : Bool} (hpc : s.pc p = .pipeclose f g w l k) (ha : s.act p = some s') : Inv s' := by
  have hl := h.live (p := p) (by rw [hpc]; simp)
  have hend : (g, w) ∈ (s.pc p).ends := by
    rw [hpc]
    exact List.mem_singleton_self _
  obtain ⟨b, hb, hopen⟩ := open_of_end (h.ends.left_pos hend)
  have hat := h.place p
  rw [hpc] at hat
  have hcl : ∀ d : Fd, d < k.cleared → s.ofile p d = none := fun d hd => h.cleared p d (by rw [hpc]; exact hd)
  simp only [State.act, hpc, State.pipeclose, hb, Option.some.injEq] at ha
  have hpc' : ∃ x, s' = ((s.setPipe g (some (b.shut w))).drop f).goto p x ∧
      ((x = .kfree g l k ∧ b.shut w = ⟨false, false⟩) ∨ (x = .closing l k ∧ b.shut w ≠ ⟨false, false⟩)) := by
    refine ⟨_, ha.symm, ?_⟩
    split_ifs with hshut
    · exact Or.inl ⟨rfl, hshut⟩
    · exact Or.inr ⟨rfl, hshut⟩
  obtain ⟨x, hs, hx⟩ := hpc'
  have hself : s'.pc p = x := by
    rw [hs]
    exact if_pos rfl
  have hfile : s'.file = s.file := by rw [hs]; rfl
  have hpipe : s'.pipe g = some (b.shut w) := by
    rw [hs]
    exact if_pos rfl
  have hpipe' : ∀ y, y ≠ g → s'.pipe y = s.pipe y := by
    intro y hy
    rw [hs]
    exact if_neg hy
  have hskip : x.skip = k.skip ∧ x.hands = l ∧ x.inodes = k.inodes ∧ x.ends = [] ∧ x.releases = [] ∧ x.cleared = k.cleared := by
    rcases hx with ⟨rfl, -⟩ | ⟨rfl, -⟩
    · exact ⟨rfl, rfl, rfl, rfl, rfl, rfl⟩
    · exact ⟨rfl, rfl, rfl, rfl, rfl, rfl⟩
  obtain ⟨hsk, hh, hin, hen, hrel, hclx⟩ := hskip
  have hslot : s'.slot = s.slot := by
    rw [hs]
    exact slot_goto (s := (s.setPipe g (some (b.shut w))).drop f)
      (by rw [show ((s.setPipe g (some (b.shut w))).drop f).pc p = s.pc p from rfl, hpc, hsk]; rfl)
  apply h.change (p := p) (f := f) (y := (p, ⟨0, by decide⟩))
  exact {
    live := hl
    life := by rw [hs]; rfl
    ofile := fun r _ => Or.inl (by rw [hs]; rfl)
    pc := fun r hr => by
      rw [hs]
      exact if_neg hr
    fork := fun q i hq => by
      rw [hself] at hq
      rcases hx with ⟨rfl, -⟩ | ⟨rfl, -⟩ <;> cases hq
    cleared := by
      rw [hself, hclx, hs]
      exact hcl
    fault := by
      rw [hs]
      exact h.fault
    file := fun _ _ => by rw [hfile]
    mine := Or.inl (by rw [hfile])
    pipe := fun y => by
      by_cases hy : y = g
      · exact Or.inr (Or.inr (Or.inl ⟨w, hy ▸ hend⟩))
      · exact Or.inl (hpipe' y hy)
    slot := fun y _ => by rw [hslot]
    refs := fun y => by
      rw [hslot, hself, hfile, hpc, hh]
      rfl
    inodes := fun y => by
      rw [hself, hfile, hpc, hin, show s'.iref = s.iref by rw [hs]; rfl]
      rfl
    ends := by
      rintro ⟨y, v⟩
      rw [hself, hfile, hpc, hen]
      by_cases hy : y = g
      · subst hy
        cases w <;> cases v <;> simp [State.openEnds, Pc.ends, hpipe, hb, Pipe.isOpen, Pipe.shut] at hopen ⊢
        · simp [hopen]
        · simp [hopen]
      · have hy' : g ≠ y := fun he => hy he.symm
        simp [State.openEnds, Pc.ends, hpipe' y hy, hy']
    frees := fun y => by
      rw [hself, hpc]
      by_cases hy : y = g
      · subst hy
        have hfull : b ≠ ⟨false, false⟩ := by
          rintro rfl
          cases w <;> cases hopen
        rcases hx with ⟨rfl, hshut⟩ | ⟨rfl, hshut⟩
        · simp [State.shutPipes, Pc.frees, hpipe, hb, hshut, hfull]
        · simp [State.shutPipes, Pc.frees, hpipe, hb, hshut, hfull]
      · have hy' : g ≠ y := fun he => hy he.symm
        rcases hx with ⟨rfl, hshut⟩ | ⟨rfl, hshut⟩
        · simp [State.shutPipes, Pc.frees, hpipe' y hy, hy']
        · simp [State.shutPipes, Pc.frees, hpipe' y hy]
    releases := fun y => by
      have hdrops : s'.drops y = if y = f then s.drops y + 1 else s.drops y := by rw [hs]; rfl
      rw [hself, hpc, hrel, hdrops, show s'.setups = s.setups by rw [hs]; rfl]
      simp only [Pc.releases, State.typed, hfile, List.count_nil]
      by_cases hy : y = f
      · subst hy
        simp
        omega
      · have hy' : f ≠ y := fun he => hy he.symm
        simp [hy, hy']
    typed := by
      rw [hfile]
      exact h.typed _
    pool := by
      refine ⟨fun y => ?_, ?_, fun y hy => ?_⟩
      · have hpages := h.pages y
        rw [show s'.made = s.made by rw [hs]; rfl, show s'.freed = s.freed by rw [hs]; rfl]
        by_cases hy : y = g
        · subst hy
          rw [hb] at hpages
          rw [hpipe]
          exact hpages
        · rw [hpipe' y hy]
          exact hpages
      · rw [hs]
        exact h.nodup
      · have hmem : y ∈ s.free := by
          rw [hs] at hy
          exact hy
        have hnone := h.unpiped y hmem
        rw [hpipe' y fun he => by
          rw [he, hb] at hnone
          cases hnone]
        exact hnone
    place := by
      rw [hself]
      exact h.pipeclose_place hat hb hopen hfile hpipe hx }

lemma Inv.act_kfree (h : Inv s) (hpc : s.pc p = .kfree g l k) (ha : s.act p = some s') : Inv s' := by
  have hl := h.live (p := p) (by rw [hpc]; simp)
  have hfree : g ∈ (s.pc p).frees := by
    rw [hpc]
    exact List.mem_singleton_self _
  have hat := h.place p
  rw [hpc] at hat
  have hg : s.pipe g = some ⟨false, false⟩ := by
    have hpos := h.frees.left_pos hfree
    by_contra hne
    simp only [State.shutPipes, if_neg hne] at hpos
    omega
  have hng : g ∉ s.free := fun hmem => by
    have := h.unpiped g hmem
    rw [hg] at this
    cases this
  have hpaid : k.paid.skip = k.skip ∧ k.paid.inodes = k.inodes ∧ k.paid.cleared = k.cleared := by
    cases k <;> exact ⟨rfl, rfl, rfl⟩
  simp only [State.act, hpc, State.kfree, hg, Option.some.injEq] at ha
  have hs := ha.symm
  have hself : s'.pc p = .closing l k.paid := by
    rw [hs]
    exact if_pos rfl
  have hfile : s'.file = s.file := by rw [hs]; rfl
  have hpipe : s'.pipe g = none := by
    rw [hs]
    exact if_pos rfl
  have hpipe' : ∀ y, y ≠ g → s'.pipe y = s.pipe y := by
    intro y hy
    rw [hs]
    exact if_neg hy
  have hslot : s'.slot = s.slot := by
    rw [hs]
    exact slot_goto (s := s) (by rw [hpc]; exact hpaid.1)
  apply h.change (p := p) (f := ⟨0, by decide⟩) (y := (p, ⟨0, by decide⟩))
  exact {
    live := hl
    life := by rw [hs]; rfl
    ofile := fun r _ => Or.inl (by rw [hs]; rfl)
    pc := fun r hr => by
      rw [hs]
      exact if_neg hr
    fork := fun q i hq => by
      rw [hself] at hq
      cases hq
    cleared := by
      rw [hself, hs]
      intro d hd
      simp only [Pc.cleared, hpaid.2.2] at hd
      exact h.cleared p d (by rw [hpc]; exact hd)
    fault := by
      rw [hs]
      exact h.fault
    file := fun _ _ => by rw [hfile]
    mine := Or.inl (by rw [hfile])
    pipe := fun y => by
      by_cases hy : y = g
      · exact Or.inr (Or.inr (Or.inr (hy ▸ hfree)))
      · exact Or.inl (hpipe' y hy)
    slot := fun y _ => by rw [hslot]
    refs := fun y => by
      rw [hslot, hself, hfile, hpc]
      rfl
    inodes := fun y => by
      rw [hself, hfile, hpc, show s'.iref = s.iref by rw [hs]; rfl]
      simp only [Pc.inodes, hpaid.2.1]
    ends := by
      rintro ⟨y, v⟩
      rw [hself, hfile, hpc]
      by_cases hy : y = g
      · subst hy
        cases v <;> simp [State.openEnds, Pc.ends, hpipe, hg, Pipe.isOpen]
      · simp [State.openEnds, Pc.ends, hpipe' y hy]
    frees := fun y => by
      rw [hself, hpc]
      by_cases hy : y = g
      · subst hy
        simp [State.shutPipes, Pc.frees, hpipe, hg]
      · have hy' : g ≠ y := fun he => hy he.symm
        simp [State.shutPipes, Pc.frees, hpipe' y hy, hy']
    releases := fun y => by
      rw [hself, hpc, show s'.drops = s.drops by rw [hs]; rfl, show s'.setups = s.setups by rw [hs]; rfl]
      simp only [State.typed, hfile]
      rfl
    typed := by
      rw [hfile]
      exact h.typed _
    pool := by
      refine ⟨fun y => ?_, ?_, fun y hy => ?_⟩
      · have hpages := h.pages y
        have hfreed : s'.freed y = if y = g then s.freed y + 1 else s.freed y := by rw [hs]
        rw [show s'.made = s.made by rw [hs]; rfl, hfreed]
        by_cases hy : y = g
        · subst hy
          rw [hg] at hpages
          rw [hpipe]
          simpa using hpages
        · rw [hpipe' y hy, if_neg hy]
          exact hpages
      · rw [hs]
        exact List.nodup_cons.2 ⟨hng, h.nodup⟩
      · by_cases hyg : y = g
        · rw [hyg, hpipe]
        · rw [hpipe' y hyg]
          rw [hs] at hy
          exact h.unpiped y ((List.mem_cons.1 hy).resolve_left hyg)
    place := by
      rw [hself]
      cases k with
      | close => trivial
      | exit fd => trivial
      | openFail ip => exact hat.elim
      | pipeFail g' =>
        cases g' with
        | none => exact hat.elim
        | some g' =>
          obtain ⟨-, rfl⟩ := hat
          intro y hy
          cases hy }

end Ftable

end Os132

import Os132.Ftable.Changes

/-!
# Every step of `open`, `dup` and `pipe` keeps the books

One lemma for each place of a call: what the step changes in the hands of the process, in the table and in the pipes.
-/

namespace Os132

namespace Ftable

variable {P : Type} [Fintype P] [DecidableEq P] {s s' : State P} {p q r : P} {f : FileId} {g : Page}

lemma Inv.fdalloc (h : Inv s) {x : Pc P} {fd : Fd} (hl : s.life p = .live) (hfd : s.unusedFd p = some fd)
    (hh : ∀ k, (s.pc p).hands.count k = x.hands.count k + [f].count k) (hlike : (s.pc p).Like x) (hsk : (s.pc p).skip = none)
    (hsk' : x.skip = none) (hcl : x.cleared = 0) (hat : At ((s.setSlot p fd (some f)).goto p x) p x) :
    Inv ((s.setSlot p fd (some f)).goto p x) := by
  apply h.setSlot hl hlike (by rw [hcl]; exact fun _ hd => absurd hd (Nat.not_lt_zero _)) (fun d _ => by rw [hsk, hsk']) _ hat
  intro k
  rw [hsk, hsk', hh k]
  simp only [slotRef, unusedFd_none hfd, reduceCtorEq, if_false, Option.toList_none, Option.toList_some, List.count_nil]
  omega

omit [Fintype P] [DecidableEq P] in
lemma not_lt_cleared {x : Pc P} {o : Fd → Option FileId} (hcl : x.cleared = 0) : ∀ d : Fd, d < x.cleared → o d = none := by
  intro d hd
  rw [hcl] at hd
  exact absurd hd (Nat.not_lt_zero _)

section newEntries

variable {f0 f1 : FileId}

omit [DecidableEq P] in
lemma unusedFile_none (h : Inv s) (hf : s.unusedFile = some f) : (s.file f).type = .none := by
  by_contra hne
  have := h.typed f hne
  have := unusedFile_ref hf
  omega

omit [Fintype P] in
lemma New.filealloc {x : Pc P} (hnone : (s.file f).type = .none) : New ((s.filealloc p f).goto p x) f .none :=
  ⟨by simp [State.filealloc, State.setFile, State.addRef, State.goto, hnone], by
    simp [State.filealloc, State.setFile, State.addRef, State.goto]⟩

omit [Fintype P] in
lemma New.filealloc_other {x : Pc P} {f' : FileId} (hf : s.unusedFile = some f) (hn : New s f' .none) :
    New ((s.filealloc p f).goto p x) f' .none := by
  have hne : f' ≠ f := by
    intro he
    have := unusedFile_ref hf
    have := hn.ref
    rw [he] at this
    omega
  exact hn.of_same (if_neg hne)

omit [DecidableEq P] in
lemma Inv.hands_ne (h : Inv s) (hh : (s.pc p).hands = [f0, f1]) (hone : (s.file f0).ref = 1) : f1 ≠ f0 := by
  rintro rfl
  have hlt : 1 < (s.file f1).ref := h.refs.left_twice (i := p) (by rw [hh]; simp)
  omega

end newEntries

section openCall

variable {ip : Inode} {rd wr : Bool}

lemma Inv.act_openAlloc (h : Inv s) (hpc : s.pc p = .openAlloc ip rd wr) (ha : s.act p = some s') : Inv s' := by
  have hl := h.live (p := p) (by rw [hpc]; simp)
  simp only [State.act, hpc] at ha
  split at ha <;> cases ha
  · apply h.goto hl (by rw [hpc]; rfl) (by rw [hpc]; rfl) (by rw [hpc]; exact ⟨rfl, rfl, rfl, rfl, by simp⟩) (not_lt_cleared rfl)
    trivial
  · rename_i f hf
    apply h.filealloc hl hf (by rw [hpc]; simp [Pc.hands]) (by rw [hpc]; exact ⟨rfl, rfl, rfl, rfl, by simp⟩) (by rw [hpc]; rfl) rfl
    exact New.filealloc (unusedFile_none h hf)

lemma Inv.act_openFd (h : Inv s) (hpc : s.pc p = .openFd f ip rd wr) (ha : s.act p = some s') : Inv s' := by
  have hl := h.live (p := p) (by rw [hpc]; simp)
  have hat : New s f .none := by
    have := h.place p
    rwa [hpc] at this
  simp only [State.act, hpc] at ha
  split at ha <;> cases ha
  · apply h.goto hl (by rw [hpc]; rfl) (by rw [hpc]; rfl) (by rw [hpc]; exact ⟨rfl, rfl, rfl, rfl, by simp⟩) (not_lt_cleared rfl)
    intro y hy
    rw [List.mem_singleton.1 hy]
    exact hat
  · rename_i fd hfd
    apply h.fdalloc hl hfd (by rw [hpc]; simp [Pc.hands]) (by rw [hpc]; exact ⟨rfl, rfl, rfl, rfl, by simp⟩) (by rw [hpc]; rfl) rfl rfl
    exact ⟨hat.of_same rfl, fd, if_pos ⟨rfl, rfl⟩⟩

end openCall

section setUp

/-- An entry that is in no other hands gets a type. -/
lemma Inv.setUp (h : Inv s) {x : Pc P} {y : File} (hl : s.life p = .live) (hnew : New s f .none) (hmine : Holds s p f)
    (htype : y.type ≠ .none) (href : y.ref = 1) (hh : x.hands = (s.pc p).hands) (hsk : x.skip = (s.pc p).skip)
    (hinodes : ∀ k, (s.pc p).inodes.count k = x.inodes.count k + y.inodes.count k)
    (hends : ∀ k, (s.pc p).ends.count k = x.ends.count k + y.ends.count k) (hfrees : x.frees = (s.pc p).frees)
    (hrel : x.releases = (s.pc p).releases) (hfork : ∀ q i, x ≠ .fork q i) (hcl : x.cleared = 0)
    (hat : At ((s.setUp f y).goto p x) p x) : Inv ((s.setUp f y).goto p x) := by
  have hself : ((s.setUp f y).goto p x).pc p = x := goto_self x
  have hother : ∀ r, r ≠ p → ((s.setUp f y).goto p x).pc r = s.pc r := fun r hr => goto_other x hr
  have hfile : ((s.setUp f y).goto p x).file f = y := if_pos rfl
  have hslot : ((s.setUp f y).goto p x).slot = s.slot := slot_goto (s := s.setUp f y) hsk
  have hnone : (s.file f).inodes = [] ∧ (s.file f).ends = [] ∧ s.typed f = [] := by
    simp [File.inodes, File.ends, State.typed, hnew.type]
  apply h.change (p := p) (f := f) (y := (p, ⟨0, by decide⟩))
  exact {
    live := hl
    life := rfl
    ofile := fun _ _ => Or.inl rfl
    pc := hother
    fork := fun q i hq => absurd (hself.symm.trans hq) (hfork q i)
    cleared := by
      rw [hself]
      exact not_lt_cleared hcl
    fault := h.fault
    file := fun k hk => if_neg hk
    mine := Or.inr (Or.inr hmine)
    pipe := fun _ => Or.inl rfl
    slot := fun k _ => by rw [hslot]
    refs := fun k => by
      rw [hslot, hself, hh]
      by_cases hk : k = f
      · subst hk
        rw [hfile, href, hnew.ref]
      · rw [show ((s.setUp f y).goto p x).file k = s.file k from if_neg hk]
    inodes := fun k => by
      rw [hself, hfile, hnone.1, hinodes k]
      simp only [State.goto, State.setUp, State.setFile, List.count_nil]
      omega
    ends := fun k => by
      rw [hself, hfile, hnone.2.1, hends k]
      simp only [State.goto, State.setUp, State.setFile, State.openEnds, List.count_nil]
      omega
    frees := fun k => by
      rw [hself, hfrees]
      rfl
    releases := fun k => by
      rw [hself, hrel, hnone.2.2]
      have htyped : ((s.setUp f y).goto p x).typed f = [f] := by
        simp only [State.typed, hfile]
        exact if_neg htype
      rw [htyped]
      by_cases hk : k = f
      · subst hk
        simp [State.goto, State.setUp, State.setFile]
        omega
      · have hk' : f ≠ k := fun he => hk he.symm
        simp [State.goto, State.setUp, State.setFile, hk, hk']
    typed := fun _ => by
      rw [hfile, href]
      exact Nat.one_pos
    pool := ⟨h.pages, h.nodup, h.unpiped⟩
    place := by rwa [hself] }

end setUp

section openCall

variable {ip : Inode} {rd wr : Bool}

lemma Inv.act_openSet (h : Inv s) (hpc : s.pc p = .openSet f ip rd wr) (ha : s.act p = some s') : Inv s' := by
  have hl := h.live (p := p) (by rw [hpc]; simp)
  have hat := h.place p
  rw [hpc] at hat
  obtain ⟨hnew, fd, hfd⟩ := hat
  have hmine : Holds s p f := Or.inr ⟨fd, mem_slot.2 ⟨by rw [hpc]; simp [Pc.skip], hfd⟩⟩
  simp only [State.act, hpc] at ha
  cases ha
  apply h.setUp hl hnew hmine
  case htype => simp
  case href => exact hnew.ref
  case hh => rw [hpc]; rfl
  case hsk => rw [hpc]; rfl
  case hinodes =>
    rw [hpc]
    simp [Pc.inodes, File.inodes]
  case hends =>
    rw [hpc]
    simp [Pc.ends, File.ends]
  case hfrees => rw [hpc]; rfl
  case hrel => rw [hpc]; rfl
  case hfork => simp
  case hcl => rfl
  case hat => trivial

/-- A reference to an inode in hand is given up. -/
lemma Inv.iput (h : Inv s) {x : Pc P} {i : Inode} {l : List FileId} (hl : s.life p = .live) (hpos : i ∈ (s.pc p).inodes)
    (hh : x.hands = (s.pc p).hands) (hsk : x.skip = (s.pc p).skip)
    (hinodes : ∀ k, (s.pc p).inodes.count k = x.inodes.count k + [i].count k) (hends : x.ends = (s.pc p).ends)
    (hfrees : x.frees = (s.pc p).frees) (hdrops : ∀ k, s'.drops k = s.drops k + l.count k)
    (hrel : ∀ k, (s.pc p).releases.count k = x.releases.count k + l.count k)
    (hfork : ∀ q j, x ≠ .fork q j) (hcl : ∀ d : Fd, d < x.cleared → s.ofile p d = none) (hat : At s p x)
    (hs : s' = { (s.setIref i (s.iref i - 1)).goto p x with drops := s'.drops, call := s'.call }) : Inv s' := by
  have hself : s'.pc p = x := by
    rw [hs]
    exact if_pos rfl
  have hother : ∀ r, r ≠ p → s'.pc r = s.pc r := by
    intro r hr
    rw [hs]
    exact if_neg hr
  have hfile : s'.file = s.file := by rw [hs]; rfl
  have hpipe : s'.pipe = s.pipe := by rw [hs]; rfl
  have hofile : s'.ofile = s.ofile := by rw [hs]; rfl
  have hlife : s'.life = s.life := by rw [hs]; rfl
  have hslot : s'.slot = s.slot := by
    rw [hs]
    exact slot_goto (s := s) hsk
  have hiref : ∀ k, s'.iref k + [i].count k = s.iref k := by
    intro k
    have hk := h.inodes.left_pos hpos
    rw [hs]
    simp only [State.goto, State.setIref]
    split_ifs with he
    · subst he
      simp
      omega
    · have he' : i ≠ k := fun h' => he h'.symm
      simp [he']
  apply h.change (p := p) (f := ⟨0, by decide⟩) (y := (p, ⟨0, by decide⟩))
  exact {
    live := hl
    life := hlife
    ofile := fun r _ => Or.inl (by rw [hofile])
    pc := hother
    fork := fun q j hq => absurd (hself.symm.trans hq) (hfork q j)
    cleared := by rwa [hself, hofile]
    fault := by
      rw [hs]
      exact h.fault
    file := fun k _ => by rw [hfile]
    mine := Or.inl (by rw [hfile])
    pipe := fun _ => Or.inl (by rw [hpipe])
    slot := fun k _ => by rw [hslot]
    refs := fun k => by rw [hslot, hself, hfile, hh]
    inodes := fun k => by
      have := hiref k
      have := hinodes k
      rw [hself, hfile]
      omega
    ends := fun k => by
      rw [hself, hfile, hends]
      simp only [State.openEnds, hpipe]
    frees := fun k => by
      rw [hself, hfrees]
      simp only [State.shutPipes, hpipe]
    releases := fun k => by
      rw [hself, hrel k, hdrops k, show s'.setups = s.setups by rw [hs]; rfl]
      simp only [State.typed, hfile]
      omega
    typed := by
      rw [hfile]
      exact h.typed _
    pool := by
      rw [hs]
      exact ⟨h.pages, h.nodup, h.unpiped⟩
    place := by
      rw [hself]
      exact hat.congr hfile hpipe hofile hlife }

lemma Inv.act_openPut (h : Inv s) (hpc : s.pc p = .openPut ip) (ha : s.act p = some s') : Inv s' := by
  have hl := h.live (p := p) (by rw [hpc]; simp)
  simp only [State.act, hpc] at ha
  cases ha
  apply h.iput (x := .idle) (i := ip) (l := []) hl
  case hpos =>
    rw [hpc]
    simp [Pc.inodes]
  case hh => rw [hpc]; rfl
  case hsk => rw [hpc]; rfl
  case hinodes =>
    rw [hpc]
    simp [Pc.inodes]
  case hends => rw [hpc]; rfl
  case hfrees => rw [hpc]; rfl
  case hdrops => exact fun _ => rfl
  case hrel =>
    rw [hpc]
    simp [Pc.releases]
  case hfork => simp
  case hcl => exact not_lt_cleared rfl
  case hat => trivial
  case hs => rfl

end openCall

section dupCall

lemma Inv.act_dup (h : Inv s) {fd : Fd} (hpc : s.pc p = .dup f fd) (ha : s.act p = some s') : Inv s' := by
  have hl := h.live (p := p) (by rw [hpc]; simp)
  have hat := h.place p
  rw [hpc] at hat
  obtain ⟨hfd, fd', hne, hfd'⟩ := hat
  have hmine : Holds s p f := Or.inr ⟨fd', mem_slot.2 ⟨by rw [hpc]; simp [Pc.skip, hne.symm], hfd'⟩⟩
  have hpos := hmine.ref h
  simp only [State.act, hpc] at ha
  split at ha
  · omega
  · cases ha
    have hs := setSlot_self (s.setFile f { s.file f with ref := (s.file f).ref + 1 }) p fd
    apply h.own (congrArg (State.goto · p .idle) hs.symm) hl (Or.inr (Or.inr hmine)) (fun _ => Nat.succ_pos _)
    case hlike =>
      rw [hpc]
      exact ⟨rfl, rfl, rfl, rfl, by simp⟩
    case hcl => exact not_lt_cleared rfl
    case hsk =>
      intro d hd
      rw [hpc]
      simp [Pc.skip, hd.symm]
    case hone =>
      rw [hpc]
      simp [Pc.hands, Pc.skip, slotRef, State.setFile, hfd]
    case hrest =>
      intro k hk
      have hk' : f ≠ k := fun he => hk he.symm
      rw [hpc]
      simp [Pc.hands, Pc.skip, slotRef, State.setFile, hfd, hk']
    case hat => trivial

end dupCall

section pipeCall

variable {f0 f1 : FileId}

lemma Inv.act_pipe0 (h : Inv s) (hpc : s.pc p = .pipe0) (ha : s.act p = some s') : Inv s' := by
  have hl := h.live (p := p) (by rw [hpc]; simp)
  simp only [State.act, hpc] at ha
  split at ha <;> cases ha
  · apply h.goto hl (by rw [hpc]; rfl) (by rw [hpc]; rfl) (by rw [hpc]; exact ⟨rfl, rfl, rfl, rfl, by simp⟩) (not_lt_cleared rfl)
    intro y hy
    cases hy
  · rename_i f hf
    apply h.filealloc hl hf (by rw [hpc]; simp [Pc.hands]) (by rw [hpc]; exact ⟨rfl, rfl, rfl, rfl, by simp⟩) (by rw [hpc]; rfl) rfl
    exact New.filealloc (unusedFile_none h hf)

lemma Inv.act_pipe1 (h : Inv s) (hpc : s.pc p = .pipe1 f0) (ha : s.act p = some s') : Inv s' := by
  have hl := h.live (p := p) (by rw [hpc]; simp)
  have hat : New s f0 .none := by
    have := h.place p
    rwa [hpc] at this
  simp only [State.act, hpc] at ha
  split at ha <;> cases ha
  · apply h.goto hl (by rw [hpc]; rfl) (by rw [hpc]; rfl) (by rw [hpc]; exact ⟨rfl, rfl, rfl, rfl, by simp⟩) (not_lt_cleared rfl)
    intro y hy
    rw [List.mem_singleton.1 hy]
    exact hat
  · rename_i f hf
    apply h.filealloc hl hf _ (by rw [hpc]; exact ⟨rfl, rfl, rfl, rfl, by simp⟩) (by rw [hpc]; rfl) rfl
    · exact ⟨hat.filealloc_other hf, New.filealloc (unusedFile_none h hf)⟩
    · intro k
      rw [hpc, ← List.count_append]
      rfl

lemma Inv.act_pipe2 (h : Inv s) (hpc : s.pc p = .pipe2 f0 f1) (ha : s.act p = some s') : Inv s' := by
  have hl := h.live (p := p) (by rw [hpc]; simp)
  have hat := h.place p
  rw [hpc] at hat
  simp only [State.act, hpc, State.pipePage] at ha
  split at ha
  · cases ha
    apply h.goto hl (by rw [hpc]; rfl) (by rw [hpc]; rfl) (by rw [hpc]; exact ⟨rfl, rfl, rfl, rfl, by simp⟩) (not_lt_cleared rfl)
    intro y hy
    rcases List.mem_pair.1 hy with rfl | rfl
    · exact hat.1
    · exact hat.2
  · rename_i g rest hfree
    have hg : s.pipe g = none := h.unpiped g (by rw [hfree]; exact List.mem_cons_self)
    have hnodup := h.nodup
    rw [hfree] at hnodup
    have hs := (Option.some.inj ha).symm
    have hself : s'.pc p = .pipeSet0 f0 f1 g := by
      rw [hs]
      exact if_pos rfl
    have hother : ∀ r, r ≠ p → s'.pc r = s.pc r := by
      intro r hr
      rw [hs]
      exact if_neg hr
    have hfile : s'.file = s.file := by rw [hs]; rfl
    have hpipe : s'.pipe g = some ⟨true, true⟩ := by
      rw [hs]
      exact if_pos rfl
    have hpipe' : ∀ y, y ≠ g → s'.pipe y = s.pipe y := by
      intro y hy
      rw [hs]
      exact if_neg hy
    have hslot : s'.slot = s.slot := by
      rw [hs]
      exact slot_goto (s := s) (by rw [hpc]; rfl)
    apply h.change (p := p) (f := f0) (y := (p, ⟨0, by decide⟩))
    exact {
      live := hl
      life := by rw [hs]; rfl
      ofile := fun r _ => Or.inl (by rw [hs]; rfl)
      pc := hother
      fork := fun q i hq => absurd (hself.symm.trans hq) (by simp)
      cleared := not_lt_cleared (by rw [hself]; rfl)
      fault := by
        rw [hs]
        exact h.fault
      file := fun _ _ => by rw [hfile]
      mine := Or.inl (by rw [hfile])
      pipe := fun y => by
        by_cases hy : y = g
        · exact Or.inr (Or.inl (by rw [hy, hg]))
        · exact Or.inl (hpipe' y hy)
      slot := fun k _ => by rw [hslot]
      refs := fun k => by
        rw [hslot, hself, hpc, hfile]
        rfl
      inodes := fun k => by
        rw [hself, hpc, hfile, show s'.iref = s.iref by rw [hs]; rfl]
        rfl
      ends := by
        rintro ⟨y, w⟩
        rw [hself, hpc, hfile]
        by_cases hy : y = g
        · subst hy
          cases w <;> simp [State.openEnds, Pc.ends, hpipe, hg, Pipe.isOpen]
        · have hy' : g ≠ y := fun he => hy he.symm
          simp [State.openEnds, Pc.ends, hpipe' y hy, hy']
      frees := fun y => by
        rw [hself, hpc]
        by_cases hy : y = g
        · subst hy
          simp [State.shutPipes, Pc.frees, hpipe, hg]
        · simp [State.shutPipes, Pc.frees, hpipe' y hy]
      releases := fun k => by
        rw [hself, hpc, show s'.setups = s.setups by rw [hs]; rfl, show s'.drops = s.drops by rw [hs]; rfl]
        simp only [State.typed, hfile]
        rfl
      typed := by
        rw [hfile]
        exact h.typed _
      pool := by
        refine ⟨fun y => ?_, ?_, fun y hy => ?_⟩
        · have hpages := h.pages y
          have hfreed : s'.freed = s.freed := by rw [hs]; rfl
          have hmade : s'.made y = if y = g then s.made y + 1 else s.made y := by rw [hs]
          rw [hfreed, hmade]
          by_cases hy : y = g
          · subst hy
            rw [hg] at hpages
            simp only [hpipe, Option.isSome_some, if_true, Option.isSome_none] at hpages ⊢
            simpa using hpages
          · rw [hpipe' y hy, if_neg hy]
            exact hpages
        · rw [hs]
          exact (List.nodup_cons.1 hnodup).2
        · have hmem : y ∈ rest := by
            rw [hs] at hy
            exact hy
          rw [hpipe' y fun he => (List.nodup_cons.1 hnodup).1 (he ▸ hmem)]
          exact h.unpiped y (by rw [hfree]; exact List.mem_cons_of_mem _ hmem)
      place := by
        rw [hself]
        exact ⟨hat.1.of_same (by rw [hfile]), hat.2.of_same (by rw [hfile])⟩ }

lemma Inv.act_pipeSet0 (h : Inv s) (hpc : s.pc p = .pipeSet0 f0 f1 g) (ha : s.act p = some s') : Inv s' := by
  have hl := h.live (p := p) (by rw [hpc]; simp)
  have hat := h.place p
  rw [hpc] at hat
  have hhands : (s.pc p).hands = [f0, f1] := by rw [hpc]; rfl
  have hne := h.hands_ne hhands hat.1.ref
  simp only [State.act, hpc] at ha
  cases ha
  apply h.setUp hl hat.1
  case hmine =>
    apply Or.inl
    rw [hpc]
    simp [Pc.hands]
  case htype => simp [State.pipeEnd]
  case href => exact hat.1.ref
  case hh => rw [hpc]; rfl
  case hsk => rw [hpc]; rfl
  case hinodes =>
    rw [hpc]
    simp [Pc.inodes, File.inodes, State.pipeEnd]
  case hends =>
    intro k
    rw [hpc]
    simp only [Pc.ends, File.ends, State.pipeEnd, if_true, List.count_cons, List.count_nil]
    omega
  case hfrees => rw [hpc]; rfl
  case hrel => rw [hpc]; rfl
  case hfork => simp
  case hcl => rfl
  case hat =>
    apply And.intro
    · rw [newEnd_iff, new_iff]
      simp [State.goto, State.setUp, State.setFile, State.pipeEnd, hat.1.ref]
    · exact hat.2.of_same (if_neg hne)

lemma Inv.act_pipeSet1 (h : Inv s) (hpc : s.pc p = .pipeSet1 f0 f1 g) (ha : s.act p = some s') : Inv s' := by
  have hl := h.live (p := p) (by rw [hpc]; simp)
  have hat := h.place p
  rw [hpc] at hat
  have hhands : (s.pc p).hands = [f0, f1] := by rw [hpc]; rfl
  have hne := h.hands_ne hhands hat.1.ref
  simp only [State.act, hpc] at ha
  cases ha
  apply h.setUp hl hat.2
  case hmine =>
    apply Or.inl
    rw [hpc]
    simp [Pc.hands]
  case htype => simp [State.pipeEnd]
  case href => exact hat.2.ref
  case hh => rw [hpc]; rfl
  case hsk => rw [hpc]; rfl
  case hinodes =>
    rw [hpc]
    simp [Pc.inodes, File.inodes, State.pipeEnd]
  case hends =>
    intro k
    rw [hpc]
    simp only [Pc.ends, File.ends, State.pipeEnd, if_true, List.count_cons, List.count_nil]
    omega
  case hfrees => rw [hpc]; rfl
  case hrel => rw [hpc]; rfl
  case hfork => simp
  case hcl => rfl
  case hat =>
    apply And.intro
    · exact hat.1.of_same (if_neg hne.symm)
    · rw [newEnd_iff, new_iff]
      simp [State.goto, State.setUp, State.setFile, State.pipeEnd, hat.2.ref]

lemma Inv.act_pipeFd0 (h : Inv s) (hpc : s.pc p = .pipeFd0 f0 f1 g) (ha : s.act p = some s') : Inv s' := by
  have hl := h.live (p := p) (by rw [hpc]; simp)
  have hat := h.place p
  rw [hpc] at hat
  simp only [State.act, hpc] at ha
  split at ha <;> cases ha
  · apply h.goto hl (by rw [hpc]; rfl) (by rw [hpc]; rfl) (by rw [hpc]; exact ⟨rfl, rfl, rfl, rfl, by simp⟩) (not_lt_cleared rfl)
    exact Or.inl ⟨f0, f1, rfl, hat⟩
  · rename_i fd hfd
    apply h.fdalloc hl hfd _ (by rw [hpc]; exact ⟨rfl, rfl, rfl, rfl, by simp⟩) (by rw [hpc]; rfl) rfl rfl
    · exact ⟨hat.1.of_same rfl, hat.2.of_same rfl, if_pos ⟨rfl, rfl⟩⟩
    · intro k
      rw [hpc, Nat.add_comm, ← List.count_append]
      rfl

lemma Inv.act_pipeFd1 (h : Inv s) {fd0 : Fd} (hpc : s.pc p = .pipeFd1 fd0 f0 f1 g) (ha : s.act p = some s') : Inv s' := by
  have hl := h.live (p := p) (by rw [hpc]; simp)
  have hat := h.place p
  rw [hpc] at hat
  obtain ⟨h0, h1, hfd0⟩ := hat
  simp only [State.act, hpc] at ha
  split at ha <;> cases ha
  · apply h.setSlot hl (by rw [hpc]; exact ⟨rfl, rfl, rfl, rfl, by simp⟩) (not_lt_cleared rfl) (by rw [hpc]; simp [Pc.skip, After.skip])
    · intro k
      rw [hpc]
      simp only [Pc.hands, Pc.skip, After.skip, slotRef, hfd0, reduceCtorEq, if_false, Option.toList_some, Option.toList_none,
        List.count_cons, List.count_nil]
      omega
    · exact Or.inl ⟨f0, f1, rfl, h0.of_same rfl, h1.of_same rfl⟩
  · rename_i fd hfd
    apply h.fdalloc hl hfd (by rw [hpc]; simp [Pc.hands]) (by rw [hpc]; exact ⟨rfl, rfl, rfl, rfl, by simp⟩) (by rw [hpc]; rfl) rfl rfl
    trivial

end pipeCall

end Ftable

end Os132

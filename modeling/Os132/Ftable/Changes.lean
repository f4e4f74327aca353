import Os132.Ftable.Steps

/-!
# Changes that balance

The invariant holds after a change of one entry, one descriptor and the hands of one process if the five ledgers still balance. Most
steps only move references to one entry: `Inv.own` says what is left to check for these.
-/

namespace Os132

namespace Ftable

variable {P : Type} {s s' : State P} {p q r : P} {f : FileId} {g : Page}

lemma new_iff {t : FdType} : New s f t ↔ (s.file f).type = t ∧ (s.file f).ref = 1 := ⟨fun h => ⟨h.type, h.ref⟩, fun h => ⟨h.1, h.2⟩⟩

lemma newEnd_iff {w : Bool} : NewEnd s f g w ↔ New s f .pipe ∧ (s.file f).pipe = g ∧ (s.file f).writable = w :=
  ⟨fun h => ⟨h.toNew, h.pipe, h.writable⟩, fun h => ⟨h.1, h.2.1, h.2.2⟩⟩

lemma At.congr {x : Pc P} (hf : s'.file = s.file) (hp : s'.pipe = s.pipe) (ho : s'.ofile = s.ofile) (hl : s'.life = s.life)
    (hat : At s p x) : At s' p x := by
  cases x <;> simp only [At, Undo, new_iff, newEnd_iff, hf, hp, ho, hl] at hat ⊢ <;> exact hat

/-- A step of `p` that changes entry `f`, descriptor `y` and what `p` has in hand, and no life. -/
structure Change (s s' : State P) (p : P) (f : FileId) (y : P × Fd) : Prop where
  live : s.life p = .live
  life : s'.life = s.life
  ofile : ∀ r, r ≠ p → s'.ofile r = s.ofile r ∨ ∃ i, s.pc p = .fork r i
  pc : ∀ r, r ≠ p → s'.pc r = s.pc r
  fork : ∀ q i, s'.pc p = .fork q i → ∃ i', s.pc p = .fork q i'
  cleared : ∀ fd : Fd, fd < (s'.pc p).cleared → s'.ofile p fd = none
  fault : s'.fault = false
  file : ∀ x, x ≠ f → s'.file x = s.file x
  mine : s'.file f = s.file f ∨ (s.file f).ref = 0 ∨ Holds s p f
  pipe : ∀ g, s'.pipe g = s.pipe g ∨ s.pipe g = none ∨ (∃ w, (g, w) ∈ (s.pc p).ends) ∨ g ∈ (s.pc p).frees
  slot : ∀ x, x ≠ y → s'.slot x = s.slot x
  refs : ∀ k, (s'.file k).ref + (s.pc p).hands.count k + (s.slot y).count k =
    (s.file k).ref + (s'.pc p).hands.count k + (s'.slot y).count k
  inodes : ∀ k, s'.iref k + (s.pc p).inodes.count k + (s.file f).inodes.count k =
    s.iref k + (s'.pc p).inodes.count k + (s'.file f).inodes.count k
  ends : ∀ k, s'.openEnds k + (s.pc p).ends.count k + (s.file f).ends.count k =
    s.openEnds k + (s'.pc p).ends.count k + (s'.file f).ends.count k
  frees : ∀ k, s'.shutPipes k + (s.pc p).frees.count k = s.shutPipes k + (s'.pc p).frees.count k
  releases : ∀ k, s'.setups k + s.drops k + (s.pc p).releases.count k + (s.typed f).count k =
    s.setups k + s'.drops k + (s'.pc p).releases.count k + (s'.typed f).count k
  typed : (s'.file f).type ≠ .none → 0 < (s'.file f).ref
  pool : Pool s'
  place : At s' p (s'.pc p)

lemma beq_ends : (instBEqProd : BEq (Page × Bool)) = instBEqOfDecidableEq := by
  apply congrArg BEq.mk
  funext a b
  apply Bool.eq_iff_iff.2
  constructor
  · intro h
    exact decide_eq_true (eq_of_beq h)
  · intro h
    exact beq_iff_eq.2 (of_decide_eq_true h)

variable [Fintype P]

/-- The books follow a change that balances. -/
theorem Inv.change {y : P × Fd} (h : Inv s) (c : Change s s' p f y) : Inv s' := by
  have hb : Books s' := by
    refine ⟨h.refs.move p y (fun x hx => by rw [c.pc x hx]) c.slot fun k => ?_, h.inodes.move p f (fun x hx => by rw [c.pc x hx])
        (fun x hx => by rw [c.file x hx]) fun k => ?_,
      h.ends.move p f (fun x hx => by rw [c.pc x hx]) (fun x hx => by rw [c.file x hx]) fun k => ?_,
      h.frees.move_left p (fun x hx => by rw [c.pc x hx]) fun k => ?_,
      h.releases.move p f (fun x hx => by rw [c.pc x hx]) (fun x hx => by simp only [State.typed, c.file x hx]) fun k => ?_,
      fun x hx => ?_, c.pool⟩
    · have := c.refs k
      omega
    · have := c.inodes k
      omega
    · have := c.ends k
      rw [beq_ends] at this
      omega
    · have := c.frees k
      omega
    · have := c.releases k
      omega
    · by_cases hxf : x = f
      · subst hxf
        exact c.typed hx
      · rw [c.file x hxf] at hx ⊢
        exact h.typed x hx
  refine h.plain ⟨c.live, c.life, c.ofile, c.pc, c.fork, c.cleared, c.fault⟩ (fun x => ?_) c.pipe hb c.place
  by_cases hxf : x = f
  · subst hxf
    exact c.mine
  · exact Or.inl (c.file x hxf)

/-- `x'` holds what `x` holds, but for the references to entries. -/
structure Pc.Like (x x' : Pc P) : Prop where
  inodes : x'.inodes = x.inodes
  ends : x'.ends = x.ends
  frees : x'.frees = x.frees
  releases : x'.releases = x.releases
  fork : ∀ q i, x' = .fork q i → ∃ i', x = .fork q i'

/-- A step of `p` that moves references to entry `f` alone. -/
structure Moved (s s' : State P) (p : P) (f : FileId) (y : P × Fd) : Prop where
  live : s.life p = .live
  rest : s'.life = s.life ∧ s'.fault = s.fault ∧ s'.iref = s.iref ∧ s'.setups = s.setups ∧ s'.drops = s.drops
  pool : s'.pipe = s.pipe ∧ s'.free = s.free ∧ s'.made = s.made ∧ s'.freed = s.freed
  like : (s.pc p).Like (s'.pc p)
  cleared : ∀ fd : Fd, fd < (s'.pc p).cleared → s'.ofile p fd = none
  ofile : ∀ r, r ≠ p → s'.ofile r = s.ofile r ∨ ∃ i, s.pc p = .fork r i
  pc : ∀ r, r ≠ p → s'.pc r = s.pc r
  file : ∀ x, x ≠ f → s'.file x = s.file x
  mine : s'.file f = s.file f ∨ (s.file f).ref = 0 ∨ Holds s p f
  kind : ∃ n, s'.file f = { s.file f with ref := n } ∧ ((s.file f).type ≠ .none → 0 < n)
  slot : ∀ x, x ≠ y → s'.slot x = s.slot x
  refs : ∀ k, (s'.file k).ref + (s.pc p).hands.count k + (s.slot y).count k =
    (s.file k).ref + (s'.pc p).hands.count k + (s'.slot y).count k
  place : At s' p (s'.pc p)

lemma Inv.moved {y : P × Fd} (h : Inv s) (m : Moved s s' p f y) : Inv s' := by
  obtain ⟨hlife, hfault, hiref, hsetups, hdrops⟩ := m.rest
  obtain ⟨hpipe, hfree, hmade, hfreed⟩ := m.pool
  obtain ⟨n, hn, hpos⟩ := m.kind
  have hopen : s'.openEnds = s.openEnds := by
    funext x
    simp only [State.openEnds, hpipe]
  have hshut : s'.shutPipes = s.shutPipes := by
    funext x
    simp only [State.shutPipes, hpipe]
  have htyped : s'.typed f = s.typed f := by simp only [State.typed, hn]
  have hinodes : (s'.file f).inodes = (s.file f).inodes := by simp only [File.inodes, hn]
  have hends : (s'.file f).ends = (s.file f).ends := by simp only [File.ends, hn]
  refine h.change ⟨m.live, hlife, m.ofile, m.pc, m.like.fork, m.cleared, by rw [hfault, h.fault], m.file, m.mine,
    fun g => Or.inl (by rw [hpipe]), m.slot, m.refs, fun k => ?_, fun k => ?_, fun k => ?_, fun k => ?_, ?_, ?_, m.place⟩
  · rw [hiref, m.like.inodes, hinodes]
  · rw [hopen, m.like.ends, hends]
  · rw [hshut, m.like.frees]
  · rw [hsetups, hdrops, m.like.releases, htyped]
  · rw [hn]
    exact hpos
  · exact ⟨by rw [hmade, hfreed, hpipe]; exact h.pages, by rw [hfree]; exact h.nodup, by rw [hfree, hpipe]; exact h.unpiped⟩

lemma Inv.live (h : Inv s) (hp : s.pc p ≠ .idle) : s.life p = .live := by
  by_contra hl
  exact hp (h.busy p hl)

section hands

variable [DecidableEq P]

omit [Fintype P] in
@[simp] lemma goto_self (x : Pc P) : (s.goto p x).pc p = x := if_pos rfl

omit [Fintype P] in
lemma goto_other (x : Pc P) (hr : r ≠ p) : (s.goto p x).pc r = s.pc r := if_neg hr

omit [Fintype P] in
lemma slot_goto {x : Pc P} (hsk : x.skip = (s.pc p).skip) : (s.goto p x).slot = s.slot := by
  funext ⟨r, fd⟩
  by_cases hr : r = p
  · subst hr
    simp only [State.slot, goto_self, hsk]
    rfl
  · simp only [State.slot, goto_other x hr]
    rfl

/-- A process goes on with the same references to entries. -/
lemma Inv.goto (h : Inv s) {x : Pc P} (hl : s.life p = .live) (hh : x.hands = (s.pc p).hands) (hsk : x.skip = (s.pc p).skip)
    (hlike : (s.pc p).Like x) (hcl : ∀ fd : Fd, fd < x.cleared → s.ofile p fd = none) (hat : At s p x) : Inv (s.goto p x) := by
  have hslot := slot_goto hsk
  apply h.moved (p := p) (f := ⟨0, by decide⟩) (y := (p, ⟨0, by decide⟩))
  exact {
    live := hl
    rest := ⟨rfl, rfl, rfl, rfl, rfl⟩
    pool := ⟨rfl, rfl, rfl, rfl⟩
    like := by rwa [goto_self]
    cleared := by rwa [goto_self]
    ofile := fun _ _ => Or.inl rfl
    pc := fun r hr => goto_other x hr
    file := fun _ _ => rfl
    mine := Or.inl rfl
    kind := ⟨_, rfl, h.typed _⟩
    slot := fun y _ => by rw [hslot]
    refs := fun k => by
      rw [hslot, goto_self, hh]
      rfl
    place := by
      rw [goto_self]
      exact At.congr (s := s) rfl rfl rfl rfl hat }

omit [Fintype P] [DecidableEq P] in
lemma slot_same {fd : Fd} (ho : s'.ofile r fd = s.ofile r fd) (hsk : (s'.pc r).skip = some fd ↔ (s.pc r).skip = some fd) :
    s'.slot (r, fd) = s.slot (r, fd) := by
  simp only [State.slot, slotRef, ho, hsk]

/-- A process changes the count of one entry and one of its descriptors, and goes on. -/
lemma Inv.own (h : Inv s) {x : Pc P} {n : ℕ} {fd : Fd} {v : Option FileId}
    (hs : s' = ((s.setFile f { s.file f with ref := n }).setSlot p fd v).goto p x) (hl : s.life p = .live)
    (hmine : n = (s.file f).ref ∨ (s.file f).ref = 0 ∨ Holds s p f) (hpos : (s.file f).type ≠ .none → 0 < n)
    (hlike : (s.pc p).Like x) (hcl : ∀ d : Fd, d < x.cleared → s'.ofile p d = none)
    (hsk : ∀ d, d ≠ fd → (x.skip = some d ↔ (s.pc p).skip = some d))
    (hone : n + (s.pc p).hands.count f + (slotRef (s.ofile p) (s.pc p).skip fd).count f =
      (s.file f).ref + x.hands.count f + (if x.skip = some fd then [] else v.toList).count f)
    (hrest : ∀ k, k ≠ f → (s.pc p).hands.count k + (slotRef (s.ofile p) (s.pc p).skip fd).count k =
      x.hands.count k + (if x.skip = some fd then [] else v.toList).count k)
    (hat : At s' p x) : Inv s' := by
  have hpc : s'.pc p = x := by rw [hs, goto_self]
  have hpc' : ∀ r, r ≠ p → s'.pc r = s.pc r := by
    intro r hr
    rw [hs, goto_other x hr]
    rfl
  have hfile : s'.file f = { s.file f with ref := n } := by
    rw [hs]
    exact if_pos rfl
  have hfile' : ∀ y, y ≠ f → s'.file y = s.file y := by
    intro y hy
    rw [hs]
    exact if_neg hy
  have hofile : ∀ r d, ¬ (r = p ∧ d = fd) → s'.ofile r d = s.ofile r d := by
    intro r d hd
    rw [hs]
    exact if_neg hd
  have hv : s'.ofile p fd = v := by
    rw [hs]
    exact if_pos ⟨rfl, rfl⟩
  have hslot : s'.slot (p, fd) = if x.skip = some fd then [] else v.toList := by
    simp only [State.slot, slotRef, hpc, hv]
  apply h.moved (p := p) (f := f) (y := (p, fd))
  exact {
    live := hl
    rest := by
      rw [hs]
      exact ⟨rfl, rfl, rfl, rfl, rfl⟩
    pool := by
      rw [hs]
      exact ⟨rfl, rfl, rfl, rfl⟩
    like := by rwa [hpc]
    cleared := by rwa [hpc]
    ofile := fun r hr => Or.inl (funext fun d => hofile r d fun hd => hr hd.1)
    pc := hpc'
    file := hfile'
    mine := hmine.imp_left fun hn => by rw [hfile, hn]
    kind := ⟨n, hfile, hpos⟩
    slot := by
      rintro ⟨r, d⟩ hne
      by_cases hr : r = p
      · subst hr
        have hd : d ≠ fd := fun he => hne (by rw [he])
        exact slot_same (hofile r d fun he => hd he.2) (by rw [hpc]; exact hsk d hd)
      · exact slot_same (hofile r d fun he => hr he.1) (by rw [hpc' r hr])
    refs := by
      intro k
      rw [hslot, hpc]
      change (s'.file k).ref + (s.pc p).hands.count k + (slotRef (s.ofile p) (s.pc p).skip fd).count k = _
      by_cases hk : k = f
      · subst hk
        rw [hfile]
        exact hone
      · rw [hfile' k hk]
        have := hrest k hk
        omega
    place := by rwa [hpc] }

omit [Fintype P] [DecidableEq P] in
lemma setFile_self (s : State P) (f : FileId) : s.setFile f { s.file f with ref := (s.file f).ref } = s := by
  simp only [State.setFile]
  congr 1
  funext y
  split_ifs with hy
  · rw [hy]
  · rfl

omit [Fintype P] in
lemma setSlot_self (s : State P) (p : P) (fd : Fd) : s.setSlot p fd (s.ofile p fd) = s := by
  simp only [State.setSlot]
  congr 1
  funext r d
  split_ifs with hy
  · rw [hy.1, hy.2]
  · rfl

omit [Fintype P] [DecidableEq P] in
lemma unusedFile_ref (hf : s.unusedFile = some f) : (s.file f).ref = 0 := by
  have := List.find?_some hf
  simpa using this

omit [Fintype P] [DecidableEq P] in
lemma unusedFd_none {fd : Fd} (hf : s.unusedFd p = some fd) : s.ofile p fd = none := by
  have := List.find?_some hf
  simpa using this

omit [DecidableEq P] in
lemma Inv.called (h : Inv s) (hs : ∃ c, s' = { s with call := c }) : Inv s' := by
  obtain ⟨c, rfl⟩ := hs
  exact ⟨h.refs, h.inodes, h.ends, h.frees, h.releases, h.typed, h.pages, h.nodup, h.unpiped, h.fault, h.busy, h.unused,
    h.cleared, h.parent, fun p => At.congr (s := s) rfl rfl rfl rfl (h.place p)⟩

/-- A step that changes a descriptor and no entry. -/
lemma Inv.setSlot (h : Inv s) {x : Pc P} {fd : Fd} {v : Option FileId} (hl : s.life p = .live) (hlike : (s.pc p).Like x)
    (hcl : ∀ d : Fd, d < x.cleared → (s.setSlot p fd v).ofile p d = none)
    (hsk : ∀ d, d ≠ fd → (x.skip = some d ↔ (s.pc p).skip = some d))
    (hrefs : ∀ k, (s.pc p).hands.count k + (slotRef (s.ofile p) (s.pc p).skip fd).count k =
      x.hands.count k + (if x.skip = some fd then [] else v.toList).count k)
    (hat : At ((s.setSlot p fd v).goto p x) p x) : Inv ((s.setSlot p fd v).goto p x) := by
  have hs : (s.setSlot p fd v).goto p x =
      ((s.setFile ⟨0, by decide⟩ { s.file ⟨0, by decide⟩ with ref := (s.file ⟨0, by decide⟩).ref }).setSlot p fd v).goto p x := by
    rw [setFile_self]
  apply h.own hs hl (Or.inl rfl) (h.typed _) hlike hcl hsk _ (fun k _ => hrefs k) hat
  have := hrefs ⟨0, by decide⟩
  omega

/-- A step that changes the count of an entry and no descriptor. -/
lemma Inv.setRef (h : Inv s) {x : Pc P} {n : ℕ} (hl : s.life p = .live) (hmine : (s.file f).ref = 0 ∨ Holds s p f)
    (hpos : (s.file f).type ≠ .none → 0 < n) (hlike : (s.pc p).Like x) (hcl : ∀ d : Fd, d < x.cleared → s.ofile p d = none)
    (hsk : x.skip = (s.pc p).skip) (hone : n + (s.pc p).hands.count f = (s.file f).ref + x.hands.count f)
    (hrest : ∀ k, k ≠ f → (s.pc p).hands.count k = x.hands.count k)
    (hat : At ((s.setFile f { s.file f with ref := n }).goto p x) p x) :
    Inv ((s.setFile f { s.file f with ref := n }).goto p x) := by
  have hs := setSlot_self (s.setFile f { s.file f with ref := n }) p ⟨0, by decide⟩
  apply h.own (congrArg (State.goto · p x) hs.symm) hl (Or.inr hmine)
    hpos hlike hcl (fun d _ => by rw [hsk]) _ _ hat
  · rw [hsk]
    simp only [slotRef, State.setFile]
    omega
  · intro k hk
    rw [hsk, hrest k hk]
    rfl

/-- `filealloc` -/
lemma Inv.filealloc (h : Inv s) {x : Pc P} (hl : s.life p = .live) (hf : s.unusedFile = some f)
    (hh : ∀ k, x.hands.count k = (s.pc p).hands.count k + [f].count k) (hlike : (s.pc p).Like x)
    (hsk : x.skip = (s.pc p).skip) (hcl : x.cleared = 0) (hat : At ((s.filealloc p f).goto p x) p x) :
    Inv ((s.filealloc p f).goto p x) := by
  have href := unusedFile_ref hf
  have hinv : Inv ((s.setFile f { s.file f with ref := 1 }).goto p x) := by
    apply h.setRef hl (Or.inl href) (fun _ => Nat.one_pos) hlike (by rw [hcl]; exact fun _ hd => absurd hd (Nat.not_lt_zero _)) hsk
    · have := hh f
      rw [List.count_singleton_self] at this
      omega
    · intro k hk
      have := hh k
      rw [List.count_singleton, if_neg (by simpa using fun he : f = k => hk he.symm)] at this
      omega
    · exact At.congr (s := (s.filealloc p f).goto p x) rfl rfl rfl rfl hat
  exact hinv.called ⟨_, rfl⟩

end hands

end Ftable

end Os132

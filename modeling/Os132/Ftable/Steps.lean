import Os132.Ftable.Invariant

/-!
# What one step can do to another process

A step changes an entry only if the process that takes it holds a reference or nobody does, an end of a pipe only if the
process has it in hand, and the descriptors of no other process but a child that it is making. So what a process knows of the
entries that only it holds stays true.
-/

namespace Os132

namespace Ftable

variable {P : Type} {s s' : State P} {p q : P} {f : FileId} {g : Page}

/-- Process `p` has a reference to `f`, in hand or in a descriptor. -/
def Holds (s : State P) (p : P) (f : FileId) : Prop := f ∈ (s.pc p).hands ∨ ∃ fd, f ∈ s.slot (p, fd)

/-- What a step of `q` may change. -/
structure Touches (s s' : State P) (q : P) : Prop where
  live : s.life q = .live
  file : ∀ f, s'.file f = s.file f ∨ (s.file f).ref = 0 ∨ Holds s q f
  pipe : ∀ g, s'.pipe g = s.pipe g ∨ s.pipe g = none ∨ (∃ w, (g, w) ∈ (s.pc q).ends) ∨ g ∈ (s.pc q).frees
  ofile : ∀ r, s'.ofile r = s.ofile r ∨ r = q ∨ ∃ i, s.pc q = .fork r i
  life : ∀ r, s'.life r = s.life r ∨ s.life r = .unused ∨ r = q ∨ ∃ i, s.pc q = .fork r i
  pc : ∀ r, r ≠ q → s'.pc r = s.pc r

lemma mem_slot {fd : Fd} : f ∈ s.slot (p, fd) ↔ (s.pc p).skip ≠ some fd ∧ s.ofile p fd = some f := by
  simp only [State.slot, slotRef]
  split_ifs with h
  · simp [h]
  · simp [h]

variable [Fintype P]

lemma Holds.ref (h : Inv s) (hp : Holds s p f) : 0 < (s.file f).ref := by
  rcases hp with hp | ⟨fd, hp⟩
  · exact h.refs.left_pos hp
  · exact h.refs.right_pos hp

lemma Holds.alone (h : Inv s) (hone : (s.file f).ref = 1) (hp : Holds s p f) (hq : Holds s q f) : p = q := by
  by_contra hne
  have hlt : 1 < (s.file f).ref := by
    rcases hp with hp | ⟨fd, hp⟩ <;> rcases hq with hq | ⟨fd', hq⟩
    · exact h.refs.left_two hne hp hq
    · exact h.refs.both hp hq
    · exact h.refs.both hq hp
    · exact h.refs.right_two (fun he => hne (Prod.mk.inj he).1) hp hq
  omega

lemma Touches.same (h : Inv s) (ht : Touches s s' q) (hne : p ≠ q) (hone : (s.file f).ref = 1) (hp : Holds s p f) :
    s'.file f = s.file f := by
  rcases ht.file f with hf | hf | hf
  · exact hf
  · omega
  · exact absurd (hp.alone h hone hf) hne

/-- The write end of a pipe that only `p` can shut stays. -/
lemma Touches.halfShut (h : Inv s) (ht : Touches s s' q) (hne : p ≠ q) (hg : s.pipe g = some ⟨false, true⟩)
    (hend : (g, true) ∈ (s.pc p).ends ∨ ∃ f, (g, true) ∈ (s.file f).ends) : s'.pipe g = some ⟨false, true⟩ := by
  have hopen : s.openEnds (g, true) = 1 := by simp [State.openEnds, hg, Pipe.isOpen]
  have hshut : s.openEnds (g, false) = 0 := by simp [State.openEnds, hg, Pipe.isOpen]
  rcases ht.pipe g with hf | hf | ⟨w, hw⟩ | hf
  · rwa [hf]
  · rw [hg] at hf
    cases hf
  · cases w with
    | false =>
      have := h.ends.left_pos hw
      omega
    | true =>
      have hlt : 1 < s.openEnds (g, true) := by
        rcases hend with hend | ⟨f, hend⟩
        · exact h.ends.left_two hne hend hw
        · exact h.ends.both hw hend
      omega
  · have h1 := h.frees.left_pos hf
    simp [State.shutPipes, hg] at h1

omit [Fintype P] in
lemma New.of_same {t : FdType} (hn : New s f t) (hf : s'.file f = s.file f) : New s' f t := ⟨by rw [hf, hn.type], by rw [hf, hn.ref]⟩

omit [Fintype P] in
lemma NewEnd.of_same {w : Bool} (hn : NewEnd s f g w) (hf : s'.file f = s.file f) : NewEnd s' f g w :=
  ⟨hn.toNew.of_same hf, by rw [hf, hn.pipe], by rw [hf, hn.writable]⟩

omit [Fintype P] in
lemma NewEnd.mem {w : Bool} (hn : NewEnd s f g w) : (g, w) ∈ (s.file f).ends := by
  simp [File.ends, hn.type, hn.pipe, hn.writable]

lemma Undo.other {l : List FileId} {k : After} (h : Inv s) (ht : Touches s s' q) (hne : p ≠ q) (hl : ∀ f ∈ l, Holds s p f)
    (hu : Undo s l k) : Undo s' l k := by
  unfold Undo at hu ⊢
  split at hu
  · exact fun f hf => (hu f hf).of_same (ht.same h hne (hu f hf).ref (hl f hf))
  · exact fun f hf => (hu f hf).of_same (ht.same h hne (hu f hf).ref (hl f hf))
  · rcases hu with ⟨f0, f1, rfl, h0, h1⟩ | ⟨f1, rfl, h1, hg⟩
    · exact Or.inl ⟨f0, f1, rfl, h0.of_same (ht.same h hne h0.ref (hl f0 (by simp))),
        h1.of_same (ht.same h hne h1.ref (hl f1 (by simp)))⟩
    · exact Or.inr ⟨f1, rfl, h1.of_same (ht.same h hne h1.ref (hl f1 (by simp))), ht.halfShut h hne hg (Or.inr ⟨f1, h1.mem⟩)⟩
  · trivial

/-- What a process knows stays true when another one takes a step. -/
lemma At.other (h : Inv s) (ht : Touches s s' q) (hne : p ≠ q) : At s' p (s'.pc p) := by
  have hat := h.place p
  have hhands : ∀ f ∈ (s.pc p).hands, Holds s p f := fun f hf => Or.inl hf
  rw [ht.pc p hne]
  have hself : s.pc p ≠ .idle → s'.ofile p = s.ofile p := by
    intro hidle
    rcases ht.ofile p with ho | ho | ⟨i, ho⟩
    · exact ho
    · exact absurd ho hne
    · have hat' := h.place q
      rw [ho] at hat'
      have := h.busy p (by rw [hat'.1]; decide)
      exact absurd this hidle
  have hslots : ∀ fd f, (s.pc p).skip = none → s.ofile p fd = some f → Holds s p f := fun fd f hs ho =>
    Or.inr ⟨fd, mem_slot.2 ⟨by rw [hs]; simp, ho⟩⟩
  generalize hpc : s.pc p = pc at hat hhands hself hslots
  cases pc with
  | idle => trivial
  | openAlloc ip r w => trivial
  | openFd f ip r w => exact hat.of_same (ht.same h hne hat.ref (hhands f (by simp [Pc.hands])))
  | openSet f ip r w =>
    obtain ⟨hn, fd, ho⟩ := hat
    exact ⟨hn.of_same (ht.same h hne hn.ref (hslots fd f rfl ho)), fd, by rw [hself (by simp)]; exact ho⟩
  | openPut ip => trivial
  | dup f fd =>
    unfold At
    rw [hself (by simp)]
    exact hat
  | pipe0 => trivial
  | pipe1 f0 => exact hat.of_same (ht.same h hne hat.ref (hhands f0 (by simp [Pc.hands])))
  | pipe2 f0 f1 =>
    exact ⟨hat.1.of_same (ht.same h hne hat.1.ref (hhands f0 (by simp [Pc.hands]))),
      hat.2.of_same (ht.same h hne hat.2.ref (hhands f1 (by simp [Pc.hands])))⟩
  | pipeSet0 f0 f1 g =>
    exact ⟨hat.1.of_same (ht.same h hne hat.1.ref (hhands f0 (by simp [Pc.hands]))),
      hat.2.of_same (ht.same h hne hat.2.ref (hhands f1 (by simp [Pc.hands])))⟩
  | pipeSet1 f0 f1 g =>
    exact ⟨hat.1.of_same (ht.same h hne hat.1.ref (hhands f0 (by simp [Pc.hands]))),
      hat.2.of_same (ht.same h hne hat.2.ref (hhands f1 (by simp [Pc.hands])))⟩
  | pipeFd0 f0 f1 g =>
    exact ⟨hat.1.of_same (ht.same h hne hat.1.ref (hhands f0 (by simp [Pc.hands]))),
      hat.2.of_same (ht.same h hne hat.2.ref (hhands f1 (by simp [Pc.hands])))⟩
  | pipeFd1 fd0 f0 f1 g =>
    obtain ⟨h0, h1, ho⟩ := hat
    refine ⟨h0.of_same (ht.same h hne h0.ref (hslots fd0 f0 rfl ho)),
      h1.of_same (ht.same h hne h1.ref (hhands f1 (by simp [Pc.hands]))), ?_⟩
    rw [hself (by simp)]
    exact ho
  | closing l k => exact Undo.other (l := l) (k := k) h ht hne (fun f hf => hhands f hf) hat
  | pipeclose f g w l k =>
    cases k with
    | close => trivial
    | exit fd => trivial
    | openFail ip => exact hat
    | pipeFail g' =>
      cases g' with
      | none => exact hat
      | some g' =>
        obtain ⟨rfl, ⟨hw, f1, rfl, h1⟩ | ⟨hw, hl, hg⟩⟩ := hat
        · exact ⟨rfl, Or.inl ⟨hw, f1, rfl, h1.of_same (ht.same h hne h1.ref (hhands f1 (by simp [Pc.hands])))⟩⟩
        · refine ⟨rfl, Or.inr ⟨hw, hl, ht.halfShut h hne hg (Or.inl ?_)⟩⟩
          rw [hpc, hw]
          simp [Pc.ends]
  | kfree g l k => exact hat
  | iput f ip l k => exact hat
  | fork r i =>
    obtain ⟨hl, ho⟩ := hat
    have hrq : r ≠ q := fun he => by
      rw [he, ht.live] at hl
      cases hl
    have hother : ∀ i', s.pc q ≠ .fork r i' := fun i' hi' => hne (h.parent p q r i i' hpc hi')
    refine ⟨?_, ?_⟩
    · rcases ht.life r with hlr | hlr | hlr | ⟨i', hlr⟩
      · rw [hlr, hl]
      · rw [hlr] at hl
        cases hl
      · exact absurd hlr hrq
      · exact absurd hlr (hother i')
    · rcases ht.ofile r with hor | hor | ⟨i', hor⟩
      · rw [hor]
        exact ho
      · exact absurd hor hrq
      · exact absurd hor (hother i')
  | exit i => trivial

/-- The pages of pipes and the free pages. -/
structure Pool (s : State P) : Prop where
  pages : ∀ g, s.made g = s.freed g + if (s.pipe g).isSome then 1 else 0
  nodup : s.free.Nodup
  unpiped : ∀ g ∈ s.free, s.pipe g = none

/-- A step of `p` that starts no process and ends none. -/
structure Plain (s s' : State P) (p : P) : Prop where
  live : s.life p = .live
  life : s'.life = s.life
  ofile : ∀ r, r ≠ p → s'.ofile r = s.ofile r ∨ ∃ i, s.pc p = .fork r i
  pc : ∀ r, r ≠ p → s'.pc r = s.pc r
  fork : ∀ q i, s'.pc p = .fork q i → ∃ i', s.pc p = .fork q i'
  cleared : ∀ fd : Fd, fd < (s'.pc p).cleared → s'.ofile p fd = none
  fault : s'.fault = false

/-- The five ledgers and the pool. -/
structure Books (s : State P) : Prop where
  refs : Ledger (fun f => (s.file f).ref) (fun _ => 0) (fun p => (s.pc p).hands) s.slot
  inodes : Ledger s.iref (fun _ => 0) (fun p => (s.pc p).inodes) fun f => (s.file f).inodes
  ends : Ledger s.openEnds (fun _ => 0) (fun p => (s.pc p).ends) fun f => (s.file f).ends
  frees : Ledger s.shutPipes (fun _ => 0) (fun p => (s.pc p).frees) fun _ : Unit => []
  releases : Ledger s.setups s.drops (fun p => (s.pc p).releases) s.typed
  typed : ∀ f, (s.file f).type ≠ .none → 0 < (s.file f).ref
  pool : Pool s

omit [Fintype P] in
lemma Plain.forked (hp : Plain s s' p) (r : P) (i : ℕ) (hr : s'.pc r = .fork q i) : ∃ i', s.pc r = .fork q i' := by
  by_cases hrp : r = p
  · subst hrp
    exact hp.fork q i hr
  · exact ⟨i, by rw [← hp.pc r hrp, hr]⟩

lemma Inv.plain (h : Inv s) (hp : Plain s s' p)
    (hfile : ∀ f, s'.file f = s.file f ∨ (s.file f).ref = 0 ∨ Holds s p f)
    (hpipe : ∀ g, s'.pipe g = s.pipe g ∨ s.pipe g = none ∨ (∃ w, (g, w) ∈ (s.pc p).ends) ∨ g ∈ (s.pc p).frees)
    (hb : Books s') (hat : At s' p (s'.pc p)) : Inv s' := by
  have ht : Touches s s' p :=
    ⟨hp.live, hfile, hpipe, fun r => (em (r = p)).elim (fun hr => Or.inr (Or.inl hr)) fun hr =>
      (hp.ofile r hr).imp_right Or.inr, fun r => Or.inl (by rw [hp.life]), hp.pc⟩
  refine ⟨hb.refs, hb.inodes, hb.ends, hb.frees, hb.releases, hb.typed, hb.pool.pages, hb.pool.nodup, hb.pool.unpiped, hp.fault,
    fun r hr => ?_, fun r hr fd => ?_, fun r fd hfd => ?_, fun r r' q i i' hr hr' => ?_, fun r => ?_⟩
  · have hrp : r ≠ p := by
      rintro rfl
      rw [hp.life] at hr
      exact hr hp.live
    rw [hp.pc r hrp]
    exact h.busy r (by rwa [hp.life] at hr)
  · have hrp : r ≠ p := by
      rintro rfl
      rw [hp.life, hp.live] at hr
      cases hr
    rw [hp.life] at hr
    rcases hp.ofile r hrp with ho | ⟨i, hi⟩
    · rw [ho]
      exact h.unused r hr fd
    · have hat' := h.place p
      rw [hi] at hat'
      have hemb := hat'.1
      rw [hr] at hemb
      cases hemb
  · by_cases hrp : r = p
    · subst hrp
      exact hp.cleared fd hfd
    · rw [hp.pc r hrp] at hfd
      rcases hp.ofile r hrp with ho | ⟨i, hi⟩
      · rw [ho]
        exact h.cleared r fd hfd
      · have hat' := h.place p
        rw [hi] at hat'
        rw [h.busy r (by rw [hat'.1]; decide)] at hfd
        exact absurd hfd (Nat.not_lt_zero _)
  · obtain ⟨j, hj⟩ := hp.forked r i hr
    obtain ⟨j', hj'⟩ := hp.forked r' i' hr'
    exact h.parent r r' q j j' hj hj'
  · by_cases hrp : r = p
    · subst hrp
      exact hat
    · exact At.other h ht hrp

end Ftable

end Os132

import Os132.Ftable.Forks

/-!
# Calls of `open` and `pipe` that fail

At each place of a call that may still fail, what it has changed so far is what it holds: references to entries, the page of a pipe, a
reference to an inode and one descriptor. The way to the failure gives all of it back.
-/

namespace Os132

namespace Ftable

section holdings

variable {P : Type}

def After.undoes : After → Bool
  | .openFail _ => true
  | .pipeFail _ => true
  | _ => false

/-- The call may fail. -/
def Pc.undoes : Pc P → Bool
  | .openAlloc _ _ _ => true
  | .openFd _ _ _ _ => true
  | .openPut _ => true
  | .pipe0 => true
  | .pipe1 _ => true
  | .pipe2 _ _ => true
  | .pipeSet0 _ _ _ => true
  | .pipeSet1 _ _ _ => true
  | .pipeFd0 _ _ _ => true
  | .pipeFd1 _ _ _ _ => true
  | .closing _ k => k.undoes
  | .pipeclose _ _ _ _ k => k.undoes
  | .kfree _ _ k => k.undoes
  | .iput _ _ _ k => k.undoes
  | _ => false

def After.page : After → Option Page
  | .pipeFail g => g
  | _ => none

/-- The page that the call has taken. -/
def Pc.page : Pc P → Option Page
  | .pipeSet0 _ _ g => some g
  | .pipeSet1 _ _ g => some g
  | .pipeFd0 _ _ g => some g
  | .pipeFd1 _ _ _ g => some g
  | .closing _ k => k.page
  | .pipeclose _ _ _ _ k => k.page
  | .kfree _ _ k => k.page
  | _ => none

/-- The references to entries that the call has taken. -/
def Pc.owed : Pc P → List FileId
  | .pipeFd1 _ f0 f1 _ => [f0, f1]
  | x => x.hands

/-- The table without the descriptor that the call has set. -/
def Pc.undone (x : Pc P) (o : Fd → Option FileId) : Fd → Option FileId :=
  match x with
  | .pipeFd1 fd0 _ _ _ => fun fd => if fd = fd0 then none else o fd
  | _ => o

end holdings

/-- What a call has changed. -/
structure Net (c : Call) (refs : List FileId) (page : Option Page) (inodes : List Inode) : Prop where
  refs : ∀ f, c.refs f = refs.count f
  pages : ∀ g, c.pages g = -(page.toList.count g : ℤ)
  inodes : ∀ ip, c.inodes ip = inodes.count ip

/-- The record of a process fits its table and its place. -/
structure Fits {P : Type} (c : Call) (o : Fd → Option FileId) (x : Pc P) : Prop where
  idle : x = .idle → c.failed = true → Net c [] none [] ∧ c.table = o
  busy : x ≠ .idle → c.failed = false
  undo : x.undoes = true → Net c x.owed x.page x.inodes ∧ c.table = x.undone o

structure Records {P : Type} (s : State P) : Prop where
  fits : ∀ p, Fits (s.call p) (s.ofile p) (s.pc p)
  child : ∀ p q i, s.pc p = .fork q i → (s.call q).failed = false

section fits

variable {P : Type} {c : Call} {o : Fd → Option FileId} {x : Pc P} {refs refs' : List FileId} {page : Option Page} {inodes : List Inode}

lemma fits_of_not (hc : c.failed = false) (hx : x.undoes = false) : Fits c o x := by
  refine ⟨fun _ hf => ?_, fun _ => hc, fun hu => ?_⟩
  · rw [hc] at hf
    cases hf
  · rw [hx] at hu
    cases hu

lemma fits_of_net (hc : c.failed = false) (hn : Net c x.owed x.page x.inodes) (ht : c.table = x.undone o) (hx : x ≠ .idle) :
    Fits c o x :=
  ⟨fun h => absurd h hx, fun _ => hc, fun _ => ⟨hn, ht⟩⟩

lemma fits_of_failed (hn : Net c [] none []) (ht : c.table = o) : Fits { c with failed := true } o (.idle : Pc P) :=
  ⟨fun _ _ => ⟨⟨hn.refs, hn.pages, hn.inodes⟩, ht⟩, fun h => absurd rfl h, fun h => by cases h⟩

lemma Net.addRef {f : FileId} {d : ℤ} (hn : Net c refs page inodes) (hr : ∀ y, (refs'.count y : ℤ) = refs.count y + if y = f then d else 0) :
    Net { c with refs := fun y => if y = f then c.refs y + d else c.refs y } refs' page inodes := by
  refine ⟨fun y => ?_, hn.pages, hn.inodes⟩
  rw [hr y, ← hn.refs y]
  simp only
  split_ifs
  · rfl
  · simp

lemma Net.gain {f : FileId} (hn : Net c refs page inodes) (hr : ∀ y, refs'.count y = refs.count y + [f].count y) :
    Net { c with refs := fun y => if y = f then c.refs y + 1 else c.refs y } refs' page inodes := by
  apply hn.addRef
  intro y
  rw [hr y]
  by_cases hy : y = f
  · subst hy
    simp
  · have hy' : f ≠ y := fun he => hy he.symm
    simp [hy, hy']

lemma Net.lose {f : FileId} (hn : Net c (f :: refs) page inodes) :
    Net { c with refs := fun y => if y = f then c.refs y + -1 else c.refs y } refs page inodes := by
  apply hn.addRef
  intro y
  by_cases hy : y = f
  · subst hy
    simp
  · have hy' : f ≠ y := fun he => hy he.symm
    simp [hy, hy']

end fits

section frames

variable {P : Type} [DecidableEq P] {s s' : State P} {p q r : P}

lemma act_other (hr : r ≠ p) (ha : s.act p = some s') : s'.call r = s.call r ∧ s'.pc r = s.pc r := by
  unfold State.act at ha
  cases hpc : s.pc p <;> simp only [hpc, State.fileclose, State.pipeclose, State.kfree, State.pipePage, State.forkFd, State.exitFd, State.closed] at ha <;>
    (repeat' split at ha) <;> cases ha <;>
    simp [State.goto, State.filealloc, State.setFile, State.addRef, State.setSlot, State.setUp, State.iput, State.setIref, State.addInode,
      State.fail, State.halt, State.setPipe, State.addPage, State.drop, State.born, State.gone, hr]

/-- It sets descriptors of `p`, or of a child that it makes. -/
lemma ofile_other (hr : r ≠ p) (ha : s.act p = some s') : s'.ofile r = s.ofile r ∨ ∃ i, s.pc p = .fork r i := by
  by_cases hf : ∃ i, s.pc p = .fork r i
  · exact Or.inr hf
  · apply Or.inl
    unfold State.act at ha
    cases hpc : s.pc p <;> simp only [hpc, State.fileclose, State.pipeclose, State.kfree, State.pipePage, State.forkFd, State.exitFd, State.closed] at ha <;>
      (repeat' split at ha) <;> cases ha <;>
      simp [State.goto, State.filealloc, State.setFile, State.addRef, State.setSlot, State.setUp, State.iput, State.setIref, State.addInode,
        State.fail, State.halt, State.setPipe, State.addPage, State.drop, State.born, State.gone, hr]
    -- the loop of `fork` is left, with a child that is not `r`
    all_goals
      funext d
      apply if_neg
      rintro ⟨rfl, -⟩
      first
      | contradiction
      | exact hf ⟨_, hpc⟩

/-- Only `fork` goes on in the loop of `fork`. -/
lemma fork_of_fork {i : ℕ} (ha : s.act p = some s') (hfault : s'.fault = false) (hf : s'.pc p = .fork q i) :
    ∃ i', s.pc p = .fork q i' := by
  unfold State.act at ha
  cases hpc : s.pc p <;>
    simp only [hpc, State.fileclose, State.pipeclose, State.kfree, State.pipePage, State.forkFd, State.exitFd, State.closed] at ha <;>
    (repeat' split at ha) <;> cases ha <;>
    simp [State.goto, State.filealloc, State.setFile, State.addRef, State.setSlot, State.setUp, State.iput, State.setIref, State.addInode,
      State.fail, State.halt, State.setPipe, State.addPage, State.drop, State.born, State.gone] at hf hfault ⊢
  all_goals
    first
    | contradiction
    | exact hf.1

end frames

section steps

variable {P : Type} [Fintype P] [DecidableEq P] {s s' : State P} {p q r : P} {f f0 f1 : FileId} {g : Page} {ip : Inode} {rd wr : Bool}
  {l : List FileId} {k : After}

omit [Fintype P] in
lemma fits_openAlloc (h : Fits (s.call p) (s.ofile p) (s.pc p)) (hpc : s.pc p = .openAlloc ip rd wr) (ha : s.act p = some s') :
    Fits (s'.call p) (s'.ofile p) (s'.pc p) := by
  rw [hpc] at h
  obtain ⟨hn, ht⟩ := h.undo rfl
  have hfailed := h.busy (by simp)
  simp only [State.act, hpc] at ha
  split at ha <;> cases ha
  · rw [goto_self]
    exact fits_of_net hfailed hn ht (by simp)
  · rename_i f hf
    rw [goto_self]
    have hcall : ((s.filealloc p f).goto p (.openFd f ip rd wr)).call p =
        { s.call p with refs := fun y => if y = f then (s.call p).refs y + 1 else (s.call p).refs y } := if_pos rfl
    rw [hcall]
    exact fits_of_net hfailed (hn.gain (by simp [Pc.owed, Pc.hands])) ht (by simp)

omit [Fintype P] in
lemma fits_openFd (h : Fits (s.call p) (s.ofile p) (s.pc p)) (hpc : s.pc p = .openFd f ip rd wr) (ha : s.act p = some s') :
    Fits (s'.call p) (s'.ofile p) (s'.pc p) := by
  rw [hpc] at h
  obtain ⟨hn, ht⟩ := h.undo rfl
  have hfailed := h.busy (by simp)
  simp only [State.act, hpc] at ha
  split at ha <;> cases ha <;> rw [goto_self]
  · exact fits_of_net hfailed hn ht (by simp)
  · exact fits_of_not hfailed rfl

omit [Fintype P] in
lemma fits_openPut (h : Fits (s.call p) (s.ofile p) (s.pc p)) (hpc : s.pc p = .openPut ip) (ha : s.act p = some s') :
    Fits (s'.call p) (s'.ofile p) (s'.pc p) := by
  rw [hpc] at h
  obtain ⟨hn, ht⟩ := h.undo rfl
  simp only [State.act, hpc] at ha
  cases ha
  have hpc' : ((s.iput p ip).fail p).pc p = .idle := if_pos rfl
  have hcall : ((s.iput p ip).fail p).call p =
      { s.call p with inodes := fun y => if y = ip then (s.call p).inodes y + -1 else (s.call p).inodes y, failed := true } := by
    simp [State.fail, State.iput, State.addInode, State.setIref, State.goto]
  rw [hpc', hcall]
  refine fits_of_failed (c := { s.call p with
    inodes := fun y => if y = ip then (s.call p).inodes y + -1 else (s.call p).inodes y }) ⟨hn.refs, hn.pages, fun y => ?_⟩ ht
  simp only [hn.inodes, Pc.inodes]
  split_ifs with hy
  · subst hy
    simp
  · have hy' : ip ≠ y := fun he => hy he.symm
    simp [hy']

omit [Fintype P] in
lemma fits_pipe0 (h : Fits (s.call p) (s.ofile p) (s.pc p)) (hpc : s.pc p = .pipe0) (ha : s.act p = some s') :
    Fits (s'.call p) (s'.ofile p) (s'.pc p) := by
  rw [hpc] at h
  obtain ⟨hn, ht⟩ := h.undo rfl
  have hfailed := h.busy (by simp)
  simp only [State.act, hpc] at ha
  split at ha <;> cases ha <;> rw [goto_self]
  · exact fits_of_net hfailed hn ht (by simp)
  · rename_i f hf
    have hcall : ((s.filealloc p f).goto p (.pipe1 f)).call p =
        { s.call p with refs := fun y => if y = f then (s.call p).refs y + 1 else (s.call p).refs y } := if_pos rfl
    rw [hcall]
    exact fits_of_net hfailed (hn.gain (by simp [Pc.owed, Pc.hands])) ht (by simp)

omit [Fintype P] in
lemma fits_pipe1 (h : Fits (s.call p) (s.ofile p) (s.pc p)) (hpc : s.pc p = .pipe1 f0) (ha : s.act p = some s') :
    Fits (s'.call p) (s'.ofile p) (s'.pc p) := by
  rw [hpc] at h
  obtain ⟨hn, ht⟩ := h.undo rfl
  have hfailed := h.busy (by simp)
  simp only [State.act, hpc] at ha
  split at ha <;> cases ha <;> rw [goto_self]
  · exact fits_of_net hfailed hn ht (by simp)
  · rename_i f hf
    have hcall : ((s.filealloc p f).goto p (.pipe2 f0 f)).call p =
        { s.call p with refs := fun y => if y = f then (s.call p).refs y + 1 else (s.call p).refs y } := if_pos rfl
    rw [hcall]
    refine fits_of_net hfailed (hn.gain fun y => ?_) ht (by simp)
    rw [← List.count_append]
    rfl

omit [Fintype P] in
lemma fits_pipe2 (h : Fits (s.call p) (s.ofile p) (s.pc p)) (hpc : s.pc p = .pipe2 f0 f1) (ha : s.act p = some s') :
    Fits (s'.call p) (s'.ofile p) (s'.pc p) := by
  rw [hpc] at h
  obtain ⟨hn, ht⟩ := h.undo rfl
  have hfailed := h.busy (by simp)
  simp only [State.act, hpc, State.pipePage] at ha
  split at ha
  · cases ha
    rw [goto_self]
    exact fits_of_net hfailed hn ht (by simp)
  · rename_i g rest hfree
    have hs := (Option.some.inj ha).symm
    have hpc' : s'.pc p = .pipeSet0 f0 f1 g := by
      rw [hs]
      exact if_pos rfl
    have hofile : s'.ofile p = s.ofile p := by rw [hs]; rfl
    have hcall : s'.call p =
        { s.call p with pages := fun y => if y = g then (s.call p).pages y + -1 else (s.call p).pages y } := by
      rw [hs]
      exact if_pos rfl
    rw [hpc', hofile, hcall]
    refine fits_of_net hfailed ⟨hn.refs, fun y => ?_, hn.inodes⟩ ht (by simp)
    simp only [hn.pages, Pc.page]
    split_ifs with hy
    · subst hy
      simp
    · have hy' : g ≠ y := fun he => hy he.symm
      simp [hy']

omit [Fintype P] in
lemma fits_pipeSet (h : Fits (s.call p) (s.ofile p) (s.pc p)) (hpc : s.pc p = .pipeSet0 f0 f1 g ∨ s.pc p = .pipeSet1 f0 f1 g)
    (ha : s.act p = some s') : Fits (s'.call p) (s'.ofile p) (s'.pc p) := by
  rcases hpc with hpc | hpc <;> rw [hpc] at h <;> simp only [State.act, hpc] at ha <;> cases ha <;> rw [goto_self]
  · exact fits_of_net (h.busy (by simp)) (h.undo rfl).1 (h.undo rfl).2 (by simp)
  · exact fits_of_net (h.busy (by simp)) (h.undo rfl).1 (h.undo rfl).2 (by simp)

omit [Fintype P] in
lemma fits_pipeFd0 (h : Fits (s.call p) (s.ofile p) (s.pc p)) (hpc : s.pc p = .pipeFd0 f0 f1 g) (ha : s.act p = some s') :
    Fits (s'.call p) (s'.ofile p) (s'.pc p) := by
  rw [hpc] at h
  obtain ⟨hn, ht⟩ := h.undo rfl
  have hfailed := h.busy (by simp)
  simp only [State.act, hpc] at ha
  split at ha <;> cases ha <;> rw [goto_self]
  · exact fits_of_net hfailed hn ht (by simp)
  · rename_i fd hfd
    refine fits_of_net hfailed hn ?_ (by simp)
    change (s.call p).table = _
    rw [ht]
    funext d
    simp only [Pc.undone, State.goto, State.setSlot, true_and]
    split_ifs with hd
    · rw [hd, unusedFd_none hfd]
    · rfl

omit [Fintype P] in
lemma fits_pipeFd1 (h : Fits (s.call p) (s.ofile p) (s.pc p)) {fd0 : Fd} (hpc : s.pc p = .pipeFd1 fd0 f0 f1 g)
    (ha : s.act p = some s') : Fits (s'.call p) (s'.ofile p) (s'.pc p) := by
  rw [hpc] at h
  obtain ⟨hn, ht⟩ := h.undo rfl
  have hfailed := h.busy (by simp)
  simp only [State.act, hpc] at ha
  split at ha <;> cases ha <;> rw [goto_self]
  · refine fits_of_net hfailed hn ?_ (by simp)
    change (s.call p).table = _
    rw [ht]
    funext d
    simp [Pc.undone, State.goto, State.setSlot]
  · exact fits_of_not hfailed rfl

lemma fits_closed (h : Fits (s.call p) (s.ofile p) (s.pc p)) (hi : Inv s) (hpc : s.pc p = .closing [] k) (ha : s.act p = some s') :
    Fits (s'.call p) (s'.ofile p) (s'.pc p) := by
  have hu : Undo s [] k := by
    have := hi.place p
    rwa [hpc] at this
  rw [hpc] at h
  have hfailed := h.busy (by simp)
  simp only [State.act, hpc, Option.some.injEq] at ha
  rw [← ha]
  cases k with
  | close =>
    simp only [State.closed, goto_self]
    exact fits_of_not hfailed rfl
  | exit fd =>
    simp only [State.closed, goto_self]
    exact fits_of_not hfailed rfl
  | openFail ip =>
    obtain ⟨hn, ht⟩ := h.undo rfl
    simp only [State.closed, goto_self]
    exact fits_of_net hfailed hn ht (by simp)
  | pipeFail g =>
    obtain ⟨hn, ht⟩ := h.undo rfl
    cases g with
    | none =>
      have hpc' : (s.fail p).pc p = .idle := if_pos rfl
      have hcall : (s.fail p).call p = { s.call p with failed := true } := if_pos rfl
      change Fits ((s.fail p).call p) (s.ofile p) ((s.fail p).pc p)
      rw [hpc', hcall]
      exact fits_of_failed hn ht
    | some g =>
      rcases hu with ⟨f0, f1, hl, -⟩ | ⟨f1, hl, -⟩
      · cases hl
      · cases hl

omit [Fintype P] in
/-- Where `fileclose` goes. -/
lemma fileclose_cases (hpos : 0 < (s.file f).ref) (hs : s' = s.fileclose p f l k) :
    s'.call p = { s.call p with refs := fun y => if y = f then (s.call p).refs y + -1 else (s.call p).refs y } ∧
      s'.ofile p = s.ofile p ∧
      (s'.pc p = .closing l k ∨ (∃ g w, s'.pc p = .pipeclose f g w l k) ∨ ∃ ip, s'.pc p = .iput f ip l k) := by
  simp only [State.fileclose] at hs
  rw [if_neg (by omega)] at hs
  split_ifs at hs with h1
  · rw [hs]
    exact ⟨if_pos rfl, rfl, Or.inl (if_pos rfl)⟩
  · rw [hs]
    refine ⟨if_pos rfl, rfl, ?_⟩
    rw [goto_self]
    split
    · exact Or.inl rfl
    · exact Or.inr (Or.inl ⟨_, _, rfl⟩)
    · exact Or.inr (Or.inr ⟨_, rfl⟩)

omit [Fintype P] [DecidableEq P] in
lemma undoes_of_iput (hat : At s p (.iput f ip l k)) : k.undoes = false := by
  cases k with
  | close => rfl
  | exit fd => rfl
  | openFail ip => exact hat.elim
  | pipeFail g => exact hat.elim

lemma fits_fileclose (h : Fits (s.call p) (s.ofile p) (s.pc p)) (hi : Inv s) (hpc : s.pc p = .closing (f :: l) k)
    (ha : s.act p = some s') : Fits (s'.call p) (s'.ofile p) (s'.pc p) := by
  have hat := (hi.act ha).place p
  have hpos : 0 < (s.file f).ref := by
    apply Holds.ref (p := p) hi (Or.inl _)
    rw [hpc]
    exact List.mem_cons_self
  rw [hpc] at h
  have hfailed := h.busy (by simp)
  simp only [State.act, hpc, Option.some.injEq] at ha
  obtain ⟨hcall, hofile, hgo⟩ := fileclose_cases hpos ha.symm
  rw [hcall, hofile]
  cases hk : k.undoes with
  | false =>
    rcases hgo with hgo | ⟨g, w, hgo⟩ | ⟨ip, hgo⟩ <;> rw [hgo] <;> exact fits_of_not hfailed hk
  | true =>
    obtain ⟨hn, ht⟩ := h.undo hk
    rcases hgo with hgo | ⟨g, w, hgo⟩ | ⟨ip, hgo⟩ <;> rw [hgo]
    · exact fits_of_net hfailed (Net.lose hn) ht (by simp)
    · exact fits_of_net hfailed (Net.lose hn) ht (by simp)
    · rw [hgo] at hat
      rw [undoes_of_iput hat] at hk
      cases hk

lemma fits_iput (h : Fits (s.call p) (s.ofile p) (s.pc p)) (hi : Inv s) (hpc : s.pc p = .iput f ip l k) (ha : s.act p = some s') :
    Fits (s'.call p) (s'.ofile p) (s'.pc p) := by
  have hat := hi.place p
  rw [hpc] at hat h
  have hfailed := h.busy (by simp)
  simp only [State.act, hpc, Option.some.injEq] at ha
  rw [← ha, goto_self]
  refine fits_of_not ?_ (undoes_of_iput hat)
  simp [State.goto, State.drop, State.iput, State.addInode, State.setIref, hfailed]

lemma fits_pipeclose (h : Fits (s.call p) (s.ofile p) (s.pc p)) (hi : Inv s) {w : Bool} (hpc : s.pc p = .pipeclose f g w l k)
    (ha : s.act p = some s') : Fits (s'.call p) (s'.ofile p) (s'.pc p) := by
  have hend : (g, w) ∈ (s.pc p).ends := by
    rw [hpc]
    exact List.mem_singleton_self _
  obtain ⟨b, hb, -⟩ := open_of_end (hi.ends.left_pos hend)
  rw [hpc] at h
  have hfailed := h.busy (by simp)
  simp only [State.act, hpc, State.pipeclose, hb, Option.some.injEq] at ha
  rw [← ha, goto_self]
  cases hk : k.undoes with
  | false => split_ifs <;> exact fits_of_not hfailed hk
  | true =>
    obtain ⟨hn, ht⟩ := h.undo hk
    split_ifs <;> exact fits_of_net hfailed hn ht (by simp)

lemma fits_kfree (h : Fits (s.call p) (s.ofile p) (s.pc p)) (hi : Inv s) (hpc : s.pc p = .kfree g l k) (ha : s.act p = some s') :
    Fits (s'.call p) (s'.ofile p) (s'.pc p) := by
  have hat := hi.place p
  have hfree : g ∈ (s.pc p).frees := by
    rw [hpc]
    exact List.mem_singleton_self _
  have hg : ∃ b, s.pipe g = some b := by
    have hpos := hi.frees.left_pos hfree
    by_contra hne
    push Not at hne
    simp only [State.shutPipes, if_neg (hne _)] at hpos
    omega
  obtain ⟨b, hb⟩ := hg
  rw [hpc] at hat h
  have hfailed := h.busy (by simp)
  simp only [State.act, hpc, State.kfree, hb, Option.some.injEq] at ha
  have hpc' : s'.pc p = .closing l k.paid := by
    rw [← ha]
    exact if_pos rfl
  have hofile : s'.ofile p = s.ofile p := by
    rw [← ha]
    rfl
  have hcall : s'.call p =
      { s.call p with pages := fun y => if y = g then (s.call p).pages y + 1 else (s.call p).pages y } := by
    rw [← ha]
    exact if_pos rfl
  rw [hpc', hofile, hcall]
  cases k with
  | close => exact fits_of_not hfailed rfl
  | exit fd => exact fits_of_not hfailed rfl
  | openFail ip => exact hat.elim
  | pipeFail g' =>
    cases g' with
    | none => exact hat.elim
    | some g' =>
      obtain ⟨rfl, rfl⟩ := hat
      obtain ⟨hn, ht⟩ := h.undo rfl
      refine fits_of_net hfailed ⟨hn.refs, fun y => ?_, hn.inodes⟩ ht (by simp)
      simp only [hn.pages, Pc.page, After.page, After.paid]
      split_ifs with hy
      · subst hy
        simp
      · have hy' : g ≠ y := fun he => hy he.symm
        simp [hy']

/-- Every step of a call keeps its record. -/
lemma fits_act (h : Fits (s.call p) (s.ofile p) (s.pc p)) (hi : Inv s) (ha : s.act p = some s') :
    Fits (s'.call p) (s'.ofile p) (s'.pc p) := by
  cases hpc : s.pc p with
  | idle =>
    simp only [State.act, hpc, reduceCtorEq] at ha
  | openAlloc ip rd wr => exact fits_openAlloc h hpc ha
  | openFd f ip rd wr => exact fits_openFd h hpc ha
  | openSet f ip rd wr =>
    have hfailed := h.busy (by simp [hpc])
    simp only [State.act, hpc] at ha
    cases ha
    rw [goto_self]
    exact fits_of_not hfailed rfl
  | openPut ip => exact fits_openPut h hpc ha
  | dup f fd =>
    have hfailed := h.busy (by simp [hpc])
    have hfault := (hi.act ha).fault
    simp only [State.act, hpc] at ha
    split at ha <;> cases ha
    · cases hfault
    · rw [goto_self]
      exact fits_of_not hfailed rfl
  | pipe0 => exact fits_pipe0 h hpc ha
  | pipe1 f0 => exact fits_pipe1 h hpc ha
  | pipe2 f0 f1 => exact fits_pipe2 h hpc ha
  | pipeSet0 f0 f1 g => exact fits_pipeSet h (Or.inl hpc) ha
  | pipeSet1 f0 f1 g => exact fits_pipeSet h (Or.inr hpc) ha
  | pipeFd0 f0 f1 g => exact fits_pipeFd0 h hpc ha
  | pipeFd1 fd0 f0 f1 g => exact fits_pipeFd1 h hpc ha
  | closing l k =>
    cases l with
    | nil => exact fits_closed h hi hpc ha
    | cons f l => exact fits_fileclose h hi hpc ha
  | pipeclose f g w l k => exact fits_pipeclose h hi hpc ha
  | kfree g l k => exact fits_kfree h hi hpc ha
  | iput f ip l k => exact fits_iput h hi hpc ha
  | fork q i =>
    have hfailed := h.busy (by simp [hpc])
    have hfault := (hi.act ha).fault
    simp only [State.act, hpc, State.forkFd, State.born] at ha
    split_ifs at ha
    · split at ha
      · cases ha
        rw [goto_self]
        exact fits_of_not hfailed rfl
      · split_ifs at ha <;> cases ha
        · cases hfault
        · rw [goto_self]
          exact fits_of_not hfailed rfl
    · cases ha
      exact fits_of_not hfailed (by rw [show State.pc _ p = Pc.idle from if_pos rfl]; rfl)
  | exit i =>
    have hfailed := h.busy (by simp [hpc])
    simp only [State.act, hpc, State.exitFd, State.gone] at ha
    split_ifs at ha
    · split at ha <;> cases ha <;> rw [goto_self] <;> exact fits_of_not hfailed rfl
    · cases ha
      exact fits_of_not hfailed (by rw [show State.pc _ p = Pc.idle from if_pos rfl]; rfl)

/-- A step of a process keeps the records of all if it keeps its own. -/
lemma Records.step_of (h : Records s) (hi : Inv s) (hl : s.life p = .live) (hcall : ∀ r, r ≠ p → s'.call r = s.call r)
    (hpc : ∀ r, r ≠ p → s'.pc r = s.pc r) (hofile : ∀ r, r ≠ p → s'.ofile r = s.ofile r ∨ ∃ i, s.pc p = .fork r i)
    (hfits : Fits (s'.call p) (s'.ofile p) (s'.pc p)) (hfork : ∀ q i, s'.pc p = .fork q i → ∃ i', s.pc p = .fork q i') : Records s' := by
  have hforked : ∀ r q i, s'.pc r = .fork q i → ∃ i', s.pc r = .fork q i' := by
    intro r q i hr
    by_cases hrp : r = p
    · subst hrp
      exact hfork q i hr
    · exact ⟨i, by rw [← hpc r hrp, hr]⟩
  have hchild : ∀ r q i, s.pc r = .fork q i → q ≠ p ∧ s.pc q = .idle := by
    intro r q i hr
    have hat := hi.place r
    rw [hr] at hat
    refine ⟨?_, hi.busy q (by rw [hat.1]; simp)⟩
    rintro rfl
    have hemb := hat.1
    rw [hl] at hemb
    cases hemb
  refine ⟨fun r => ?_, fun r q i hr => ?_⟩
  · by_cases hrp : r = p
    · subst hrp
      exact hfits
    · rw [hcall r hrp, hpc r hrp]
      rcases hofile r hrp with ho | ⟨i, hi'⟩
      · rw [ho]
        exact h.fits r
      · rw [(hchild p r i hi').2]
        exact fits_of_not (h.child p r i hi') rfl
  · obtain ⟨i', hr'⟩ := hforked r q i hr
    rw [hcall q (hchild r q i' hr').1]
    exact h.child r q i' hr'

theorem Records.act (h : Records s) (hi : Inv s) (ha : s.act p = some s') : Records s' := by
  have hidle : s.pc p ≠ .idle := by
    intro hpc
    simp only [State.act, hpc, reduceCtorEq] at ha
  exact h.step_of hi (hi.live hidle) (fun r hr => (act_other hr ha).1) (fun r hr => (act_other hr ha).2)
    (fun r hr => ofile_other hr ha) (fits_act (h.fits p) hi ha) fun q i => fork_of_fork ha (hi.act ha).fault

omit [Fintype P] in
lemma start_call : (s.start p).call p = ⟨s.ofile p, fun _ => 0, fun _ => 0, fun _ => 0, false⟩ := if_pos rfl

omit [Fintype P] in
lemma start_other (hr : r ≠ p) : (s.start p).call r = s.call r := if_neg hr

lemma net_start (o : Fd → Option FileId) : Net ⟨o, fun _ => 0, fun _ => 0, fun _ => 0, false⟩ [] none [] :=
  ⟨fun _ => rfl, fun _ => rfl, fun _ => rfl⟩

lemma Records.opens (h : Records s) (hi : Inv s) {x : Pc P} (hr : s.Ready p = true) (howed : x.owed = []) (hpage : x.page = none)
    (hx : x.inodes = [ip]) (hundone : x.undone (s.ofile p) = s.ofile p) (hidle : x ≠ .idle) (hfork : ∀ q i, x ≠ .fork q i) :
    Records ((((s.start p).setIref ip (s.iref ip + 1)).addInode p ip 1).goto p x) := by
  obtain ⟨hpc, hl⟩ := ready_iff.1 hr
  have hn : Net ⟨s.ofile p, fun _ => 0, fun _ => 0, fun y => if y = ip then (0 : ℤ) + 1 else 0, false⟩ [] none [ip] := by
    refine ⟨fun _ => rfl, fun _ => rfl, fun y => ?_⟩
    by_cases hy : y = ip
    · subst hy
      simp
    · have hy' : ip ≠ y := fun he => hy he.symm
      simp [hy, hy']
  apply h.step_of hi hl
  · intro r hr
    simp [State.goto, State.addInode, State.setIref, State.start, hr]
  · exact fun r hr => if_neg hr
  · exact fun r hr => Or.inl rfl
  · have hcall : ((((s.start p).setIref ip (s.iref ip + 1)).addInode p ip 1).goto p x).call p =
        ⟨s.ofile p, fun _ => 0, fun _ => 0, fun y => if y = ip then (0 : ℤ) + 1 else 0, false⟩ := by
      simp [State.goto, State.addInode, State.setIref, State.start]
    rw [goto_self, hcall]
    refine fits_of_net rfl ?_ hundone.symm hidle
    rw [howed, hpage, hx]
    exact hn
  · intro q i hq
    rw [goto_self] at hq
    exact absurd hq (hfork q i)

theorem Records.enter (h : Records s) (hi : Inv s) {e : Label P} (he : s.enter e = some s') : Records s' := by
  cases e with
  | opens p ip dir rd wr =>
    cases ip with
    | none =>
      simp only [State.enter] at he
      split_ifs at he with hr
      cases he
      obtain ⟨hpc, hl⟩ := ready_iff.1 hr
      have hcall : ((s.start p).fail p).call p = { (s.start p).call p with failed := true } := if_pos rfl
      have hpc' : ((s.start p).fail p).pc p = .idle := if_pos rfl
      apply h.step_of hi hl
      · exact fun r hr => (if_neg hr).trans (start_other hr)
      · exact fun r hr => if_neg hr
      · exact fun r hr => Or.inl rfl
      · rw [hcall, hpc', start_call]
        exact fits_of_failed (net_start _) rfl
      · intro q i hq
        rw [hpc'] at hq
        cases hq
    | some ip =>
      simp only [State.enter] at he
      split_ifs at he with hr hdir <;> cases he
      · exact h.opens hi hr rfl rfl rfl rfl (by simp) (by simp)
      · exact h.opens hi hr rfl rfl rfl rfl (by simp) (by simp)
  | dup p fd =>
    simp only [State.enter] at he
    split_ifs at he with hr
    obtain ⟨hpc, hl⟩ := ready_iff.1 hr
    split at he <;> cases he
    · apply h.step_of hi hl
      · exact fun r hr => start_other hr
      · exact fun r hr => if_neg hr
      · intro r hr
        apply Or.inl
        funext d
        exact if_neg fun hh => hr hh.1
      · rw [goto_self]
        exact fits_of_not (congrArg Call.failed (start_call (s := s))) rfl
      · intro q i hq
        rw [goto_self] at hq
        cases hq
    · apply h.step_of hi hl
      · exact fun r hr => start_other hr
      · exact fun r hr => rfl
      · exact fun r hr => Or.inl rfl
      · rw [start_call, show (s.start p).pc p = .idle from hpc]
        exact fits_of_not rfl rfl
      · intro q i hq
        rw [show (s.start p).pc p = .idle from hpc] at hq
        cases hq
  | pipe p =>
    simp only [State.enter] at he
    split_ifs at he with hr
    cases he
    obtain ⟨hpc, hl⟩ := ready_iff.1 hr
    apply h.step_of hi hl
    · exact fun r hr => start_other hr
    · exact fun r hr => if_neg hr
    · exact fun r hr => Or.inl rfl
    · rw [goto_self, show ((s.start p).goto p .pipe0).call p = (s.start p).call p from rfl, start_call]
      exact fits_of_net rfl (net_start _) rfl (by simp)
    · intro q i hq
      rw [goto_self] at hq
      cases hq
  | close p fd =>
    simp only [State.enter] at he
    split_ifs at he with hr
    obtain ⟨hpc, hl⟩ := ready_iff.1 hr
    split at he <;> cases he
    · apply h.step_of hi hl
      · exact fun r hr => start_other hr
      · exact fun r hr => if_neg hr
      · intro r hr
        apply Or.inl
        funext d
        exact if_neg fun hh => hr hh.1
      · rw [goto_self]
        exact fits_of_not (congrArg Call.failed (start_call (s := s))) rfl
      · intro q i hq
        rw [goto_self] at hq
        cases hq
    · apply h.step_of hi hl
      · exact fun r hr => start_other hr
      · exact fun r hr => rfl
      · exact fun r hr => Or.inl rfl
      · rw [start_call, show (s.start p).pc p = .idle from hpc]
        exact fits_of_not rfl rfl
      · intro q i hq
        rw [show (s.start p).pc p = .idle from hpc] at hq
        cases hq
  | fork p q =>
    simp only [State.enter] at he
    split_ifs at he with hr
    cases he
    obtain ⟨hr, hq⟩ := hr
    obtain ⟨hpc, hl⟩ := ready_iff.1 hr
    have hqp : q ≠ p := by
      rintro rfl
      rw [hl] at hq
      cases hq
    have hstart : ∀ r, r = p ∨ r = q → (((s.start p).start q).call r).failed = false := by
      intro r hr
      simp only [State.start]
      split_ifs <;> simp_all
    have hother : ∀ r, r ≠ p → r ≠ q → ((s.start p).start q).call r = s.call r := by
      intro r hrp hrq
      simp [State.start, hrp, hrq]
    refine ⟨fun r => ?_, fun r t i hr => ?_⟩
    · by_cases hrp : r = p
      · subst hrp
        exact fits_of_not (hstart r (Or.inl rfl)) (by rw [show State.pc _ r = Pc.fork q 0 from if_pos rfl]; rfl)
      · have hpcr : (((s.start p).start q).goto p (.fork q 0)).pc r = s.pc r := if_neg hrp
        by_cases hrq : r = q
        · subst hrq
          refine fits_of_not (hstart r (Or.inr rfl)) ?_
          rw [show State.pc _ r = s.pc r from hpcr, hi.busy r (by rw [hq]; simp)]
          rfl
        · have hfits := h.fits r
          rw [← hother r hrp hrq, ← hpcr] at hfits
          exact hfits
    · by_cases hrp : r = p
      · subst hrp
        have hfork : Pc.fork q 0 = Pc.fork t i := (if_pos rfl).symm.trans hr
        obtain ⟨rfl, -⟩ := Pc.fork.inj hfork
        exact hstart q (Or.inr rfl)
      · have hr' : s.pc r = .fork t i := (if_neg hrp).symm.trans hr
        by_cases ht : t = p ∨ t = q
        · exact hstart t ht
        · push Not at ht
          change (((s.start p).start q).call t).failed = false
          rw [hother t ht.1 ht.2]
          exact h.child r t i hr'
  | exit p =>
    simp only [State.enter] at he
    split_ifs at he with hr
    cases he
    obtain ⟨hpc, hl⟩ := ready_iff.1 hr
    apply h.step_of hi hl
    · exact fun r hr => start_other hr
    · exact fun r hr => if_neg hr
    · exact fun r hr => Or.inl rfl
    · rw [goto_self]
      exact fits_of_not (congrArg Call.failed (start_call (s := s))) rfl
    · intro q i hq
      rw [goto_self] at hq
      cases hq
  | uses p fd =>
    simp only [State.enter] at he
    split_ifs at he with hr
    split at he <;> cases he
    · rwa [hi.touch]
    · exact h
  | act p => cases he
  | kalloc => cases he
  | kfree g => cases he

/-- Every step keeps the records. -/
theorem Records.step (h : Records s) (hi : Inv s) {e : Label P} (hs : Ftable.step e s = some s') : Records s' := by
  unfold Ftable.step at hs
  rw [if_neg (by simp [hi.fault])] at hs
  split at hs
  · exact h.act hi hs
  · split at hs <;> cases hs
    · exact h
    · exact ⟨h.fits, h.child⟩
  · split_ifs at hs
    cases hs
    exact ⟨h.fits, h.child⟩
  · exact h.enter hi hs

end steps

end Ftable

end Os132

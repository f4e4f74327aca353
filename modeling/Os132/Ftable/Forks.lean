import Os132.Ftable.Closes

/-!
# Every step of `fork` and `exit` keeps the books

`fork` gives the child a reference of its own for each descriptor; `exit` closes the descriptors one by one.
-/

namespace Os132

namespace Ftable

variable {P : Type} [Fintype P] [DecidableEq P] {s s' : State P} {p q r t : P} {f : FileId}

/-- A process starts or ends, and `p` goes on with the same things in hand. -/
lemma Inv.lives (h : Inv s) {x : Pc P} {v : Life} {c : P → Call}
    (hs : s' = { s.goto p x with life := fun y => if y = t then v else s.life y, call := c }) (hl : s.life p = .live)
    (hh : x.hands = (s.pc p).hands) (hsk : x.skip = (s.pc p).skip) (hinodes : x.inodes = (s.pc p).inodes)
    (hends : x.ends = (s.pc p).ends) (hfrees : x.frees = (s.pc p).frees) (hrel : x.releases = (s.pc p).releases)
    (hcl : x.cleared = 0) (ht : s.life t = .unused ∨ t = p ∨ ∃ i, s.pc p = .fork t i)
    (hbusy : v ≠ .live → t = p ∧ x = .idle ∨ t ≠ p ∧ s.pc t = .idle) (hunused : v = .unused → ∀ fd, s.ofile t fd = none)
    (hparent : ∀ q i, x = .fork q i → ∀ r i', s.pc r ≠ .fork q i') (hat : At s' p x) : Inv s' := by
  have hself : s'.pc p = x := by
    rw [hs]
    exact if_pos rfl
  have hother : ∀ r, r ≠ p → s'.pc r = s.pc r := by
    intro r hr
    rw [hs]
    exact if_neg hr
  have hlife : s'.life t = v := by
    rw [hs]
    exact if_pos rfl
  have hlife' : ∀ r, r ≠ t → s'.life r = s.life r := by
    intro r hr
    rw [hs]
    exact if_neg hr
  have hfile : s'.file = s.file := by rw [hs]; rfl
  have hpipe : s'.pipe = s.pipe := by rw [hs]; rfl
  have hofile : s'.ofile = s.ofile := by rw [hs]; rfl
  have hslot : s'.slot = s.slot := by
    rw [hs]
    exact slot_goto (s := s) hsk
  have hall : ∀ (β : Type) (φ : Pc P → β), φ x = φ (s.pc p) → ∀ r, φ (s'.pc r) = φ (s.pc r) := by
    intro β φ hφ r
    by_cases hrp : r = p
    · rw [hrp, hself, hφ]
    · rw [hother r hrp]
  have htouch : Touches s s' p := by
    refine ⟨hl, fun _ => Or.inl (by rw [hfile]), fun _ => Or.inl (by rw [hpipe]), fun _ => Or.inl (by rw [hofile]), fun r => ?_, hother⟩
    by_cases hr : r = t
    · exact Or.inr (hr ▸ ht)
    · exact Or.inl (hlife' r hr)
  exact {
    refs := h.refs.same (fun y => by rw [hfile]) (fun _ => rfl) (hall _ Pc.hands hh) fun y => by rw [hslot]
    inodes := h.inodes.same (fun y => by rw [hs]; rfl) (fun _ => rfl) (hall _ Pc.inodes hinodes) fun y => by rw [hfile]
    ends := h.ends.same (fun y => by simp only [State.openEnds, hpipe]) (fun _ => rfl) (hall _ Pc.ends hends) fun y => by rw [hfile]
    frees := h.frees.same (fun y => by simp only [State.shutPipes, hpipe]) (fun _ => rfl) (hall _ Pc.frees hfrees) fun _ => rfl
    releases := h.releases.same (fun y => by rw [hs]; rfl) (fun y => by rw [hs]; rfl) (hall _ Pc.releases hrel)
      fun y => by simp only [State.typed, hfile]
    typed := by
      rw [hfile]
      exact h.typed
    pages := by
      rw [hs]
      exact h.pages
    nodup := by
      rw [hs]
      exact h.nodup
    unpiped := by
      rw [hs]
      exact h.unpiped
    fault := by
      rw [hs]
      exact h.fault
    busy := by
      intro r hr
      by_cases hrt : r = t
      · subst hrt
        rw [hlife] at hr
        rcases hbusy hr with ⟨hrp, hx⟩ | ⟨hrp, hpc⟩
        · rw [hrp, hself, hx]
        · rw [hother r hrp, hpc]
      · rw [hlife' r hrt] at hr
        have hrp : r ≠ p := by
          rintro rfl
          exact hr hl
        rw [hother r hrp]
        exact h.busy r hr
    unused := by
      intro r hr
      rw [hofile]
      by_cases hrt : r = t
      · subst hrt
        exact hunused (hlife.symm.trans hr)
      · rw [hlife' r hrt] at hr
        exact h.unused r hr
    cleared := by
      intro r fd hfd
      rw [hofile]
      by_cases hrp : r = p
      · subst hrp
        rw [hself, hcl] at hfd
        exact absurd hfd (Nat.not_lt_zero _)
      · rw [hother r hrp] at hfd
        exact h.cleared r fd hfd
    parent := by
      intro r r' q i i' hr hr'
      by_cases hrp : r = p <;> by_cases hrp' : r' = p
      · rw [hrp, hrp']
      · rw [hrp, hself] at hr
        rw [hother r' hrp'] at hr'
        exact absurd hr' (hparent q i hr r' i')
      · rw [hrp', hself] at hr'
        rw [hother r hrp] at hr
        exact absurd hr (hparent q i' hr' r i)
      · rw [hother r hrp] at hr
        rw [hother r' hrp'] at hr'
        exact h.parent r r' q i i' hr hr'
    place := by
      intro r
      by_cases hrp : r = p
      · subst hrp
        rwa [hself]
      · exact At.other h htouch hrp }

lemma Inv.act_forkFd (h : Inv s) {i : ℕ} (hpc : s.pc p = .fork q i) (hi : i < NOFILE) (ha : s.act p = some s') : Inv s' := by
  have hl := h.live (p := p) (by rw [hpc]; simp)
  have hat := h.place p
  rw [hpc] at hat
  obtain ⟨hemb, hnone⟩ := hat
  simp only [State.act, hpc, dif_pos hi, State.forkFd, Option.some.injEq] at ha
  split at ha
  · rw [← ha]
    apply h.goto hl (by rw [hpc]; rfl) (by rw [hpc]; rfl) _ (not_lt_cleared rfl)
    · exact ⟨hemb, fun j hj => hnone j (by omega)⟩
    · rw [hpc]
      refine ⟨rfl, rfl, rfl, rfl, fun q' i' he => ?_⟩
      obtain ⟨rfl, -⟩ := Pc.fork.inj he
      exact ⟨i, rfl⟩
  · rename_i f hf
    have hmine : Holds s p f := Or.inr ⟨⟨i, hi⟩, mem_slot.2 ⟨by rw [hpc]; simp [Pc.skip], hf⟩⟩
    have hpos := hmine.ref h
    rw [if_neg (by omega)] at ha
    have hqp : q ≠ p := by
      rintro rfl
      rw [hl] at hemb
      cases hemb
    have hq : s.pc q = .idle := h.busy q (by rw [hemb]; simp)
    have hself : s'.pc p = .fork q (i + 1) := by
      rw [← ha]
      exact if_pos rfl
    have hother : ∀ r, r ≠ p → s'.pc r = s.pc r := by
      intro r hr
      rw [← ha]
      exact if_neg hr
    have hofile : ∀ r d, ¬ (r = q ∧ d = ⟨i, hi⟩) → s'.ofile r d = s.ofile r d := by
      intro r d hd
      rw [← ha]
      exact if_neg hd
    have hnew : s'.ofile q ⟨i, hi⟩ = some f := by
      rw [← ha]
      exact if_pos ⟨rfl, rfl⟩
    have hfile : s'.file f = { s.file f with ref := (s.file f).ref + 1 } := by
      rw [← ha]
      exact if_pos rfl
    have hfile' : ∀ y, y ≠ f → s'.file y = s.file y := by
      intro y hy
      rw [← ha]
      exact if_neg hy
    have hold : s.slot (q, ⟨i, hi⟩) = [] := by
      simp [State.slot, slotRef, hq, Pc.skip, hnone ⟨i, hi⟩ (Nat.le_refl i)]
    have hnow : s'.slot (q, ⟨i, hi⟩) = [f] := by
      simp [State.slot, slotRef, hother q hqp, hq, Pc.skip, hnew]
    apply h.moved (p := p) (f := f) (y := (q, ⟨i, hi⟩))
    exact {
      live := hl
      rest := by
        rw [← ha]
        exact ⟨rfl, rfl, rfl, rfl, rfl⟩
      pool := by
        rw [← ha]
        exact ⟨rfl, rfl, rfl, rfl⟩
      like := by
        rw [hpc, hself]
        refine ⟨rfl, rfl, rfl, rfl, fun q' i' he => ?_⟩
        obtain ⟨rfl, -⟩ := Pc.fork.inj he
        exact ⟨i, rfl⟩
      cleared := not_lt_cleared (by rw [hself]; rfl)
      ofile := fun r _ => by
        by_cases hr : r = q
        · exact Or.inr ⟨i, by rw [hr, hpc]⟩
        · exact Or.inl (funext fun d => hofile r d fun he => hr he.1)
      pc := hother
      file := hfile'
      mine := Or.inr (Or.inr hmine)
      kind := ⟨_, hfile, fun _ => Nat.succ_pos _⟩
      slot := by
        rintro ⟨r, d⟩ hne
        apply slot_same (hofile r d fun he => hne (by rw [he.1, he.2]))
        by_cases hr : r = p
        · rw [hr, hself, hpc]
          rfl
        · rw [hother r hr]
      refs := by
        intro k
        rw [hold, hnow, hself, hpc]
        by_cases hk : k = f
        · subst hk
          rw [hfile]
          simp [Pc.hands]
        · have hk' : f ≠ k := fun he => hk he.symm
          rw [hfile' k hk]
          simp [Pc.hands, hk']
      place := by
        rw [hself]
        refine ⟨by rw [← ha]; exact hemb, fun j hj => ?_⟩
        rw [hofile q j fun he => by
          have := congrArg Fin.val he.2
          simp only at this
          omega]
        exact hnone j (by omega) }

lemma Inv.act_born (h : Inv s) {i : ℕ} (hpc : s.pc p = .fork q i) (hi : ¬ i < NOFILE) (ha : s.act p = some s') : Inv s' := by
  have hl := h.live (p := p) (by rw [hpc]; simp)
  simp only [State.act, hpc, dif_neg hi, Option.some.injEq] at ha
  apply h.lives (v := .live) ha.symm hl
  case hh => rw [hpc]; rfl
  case hsk => rw [hpc]; rfl
  case hinodes => rw [hpc]; rfl
  case hends => rw [hpc]; rfl
  case hfrees => rw [hpc]; rfl
  case hrel => rw [hpc]; rfl
  case hcl => rfl
  case ht => exact Or.inr (Or.inr ⟨i, hpc⟩)
  case hbusy => exact fun hne => absurd rfl hne
  case hunused => simp
  case hparent => simp
  case hat => trivial

lemma Inv.act_exitFd (h : Inv s) {i : ℕ} (hpc : s.pc p = .exit i) (hi : i < NOFILE) (ha : s.act p = some s') : Inv s' := by
  have hl := h.live (p := p) (by rw [hpc]; simp)
  have hcl : ∀ d : Fd, d < i → s.ofile p d = none := fun d hd => h.cleared p d (by rw [hpc]; exact hd)
  simp only [State.act, hpc, dif_pos hi, State.exitFd, Option.some.injEq] at ha
  split at ha
  · rename_i hf
    rw [← ha]
    apply h.goto hl (by rw [hpc]; rfl) (by rw [hpc]; rfl) (by rw [hpc]; exact ⟨rfl, rfl, rfl, rfl, by simp⟩)
    · intro d hd
      by_cases hdi : d = ⟨i, hi⟩
      · rw [hdi, hf]
      · have hne : (d : ℕ) ≠ i := fun he => hdi (Fin.ext he)
        simp only [Pc.cleared] at hd
        exact hcl d (by omega)
    · trivial
  · rename_i f hf
    rw [← ha]
    have hs := setSlot_self s p ⟨i, hi⟩
    have hinv : Inv ((s.setSlot p ⟨i, hi⟩ (s.ofile p ⟨i, hi⟩)).goto p (.closing [f] (.exit ⟨i, hi⟩))) := by
      apply h.setSlot hl
      case hlike =>
        rw [hpc]
        exact ⟨rfl, rfl, rfl, rfl, by simp⟩
      case hcl =>
        rw [hs]
        exact hcl
      case hsk =>
        intro d hd
        rw [hpc]
        simp [Pc.skip, After.skip, hd.symm]
      case hrefs =>
        intro k
        rw [hpc]
        simp [Pc.hands, Pc.skip, After.skip, slotRef, hf]
      case hat => trivial
    rwa [hs] at hinv

lemma Inv.act_gone (h : Inv s) {i : ℕ} (hpc : s.pc p = .exit i) (hi : ¬ i < NOFILE) (ha : s.act p = some s') : Inv s' := by
  have hl := h.live (p := p) (by rw [hpc]; simp)
  have hcl : ∀ d : Fd, s.ofile p d = none := by
    intro d
    apply h.cleared p d
    rw [hpc]
    simp only [Pc.cleared]
    have := d.isLt
    omega
  simp only [State.act, hpc, dif_neg hi, Option.some.injEq] at ha
  apply h.lives (v := .unused) ha.symm hl
  case hh => rw [hpc]; rfl
  case hsk => rw [hpc]; rfl
  case hinodes => rw [hpc]; rfl
  case hends => rw [hpc]; rfl
  case hfrees => rw [hpc]; rfl
  case hrel => rw [hpc]; rfl
  case hcl => rfl
  case ht => exact Or.inr (Or.inl rfl)
  case hbusy => exact fun _ => Or.inl ⟨rfl, rfl⟩
  case hunused => exact fun _ => hcl
  case hparent => simp
  case hat => trivial

/-- Every step of a call keeps the invariant. -/
theorem Inv.act (h : Inv s) (ha : s.act p = some s') : Inv s' := by
  cases hpc : s.pc p with
  | idle =>
    simp only [State.act, hpc, reduceCtorEq] at ha
  | openAlloc ip rd wr => exact h.act_openAlloc hpc ha
  | openFd f ip rd wr => exact h.act_openFd hpc ha
  | openSet f ip rd wr => exact h.act_openSet hpc ha
  | openPut ip => exact h.act_openPut hpc ha
  | dup f fd => exact h.act_dup hpc ha
  | pipe0 => exact h.act_pipe0 hpc ha
  | pipe1 f0 => exact h.act_pipe1 hpc ha
  | pipe2 f0 f1 => exact h.act_pipe2 hpc ha
  | pipeSet0 f0 f1 g => exact h.act_pipeSet0 hpc ha
  | pipeSet1 f0 f1 g => exact h.act_pipeSet1 hpc ha
  | pipeFd0 f0 f1 g => exact h.act_pipeFd0 hpc ha
  | pipeFd1 fd0 f0 f1 g => exact h.act_pipeFd1 hpc ha
  | closing l k =>
    cases l with
    | nil => exact h.act_closed hpc ha
    | cons f l => exact h.act_fileclose hpc ha
  | pipeclose f g w l k => exact h.act_pipeclose hpc ha
  | kfree g l k => exact h.act_kfree hpc ha
  | iput f ip l k => exact h.act_iput hpc ha
  | fork q i =>
    by_cases hi : i < NOFILE
    · exact h.act_forkFd hpc hi ha
    · exact h.act_born hpc hi ha
  | exit i =>
    by_cases hi : i < NOFILE
    · exact h.act_exitFd hpc hi ha
    · exact h.act_gone hpc hi ha

section calls

omit [Fintype P] [DecidableEq P] in
lemma ready_iff : s.Ready p = true ↔ s.pc p = .idle ∧ s.life p = .live := by
  unfold State.Ready
  cases s.pc p <;> simp

/-- `namei` or `create` returns an inode. -/
lemma Inv.opens (h : Inv s) {ip : Inode} {x : Pc P} (hr : s.Ready p = true) (hx : x.inodes = [ip]) (hh : x.hands = [])
    (hsk : x.skip = none) (hends : x.ends = []) (hfrees : x.frees = []) (hrel : x.releases = []) (hfork : ∀ q i, x ≠ .fork q i)
    (hcl : x.cleared = 0) (hat : At s p x) : Inv ((s.setIref ip (s.iref ip + 1)).goto p x) := by
  obtain ⟨hpc, hl⟩ := ready_iff.1 hr
  have hself : ((s.setIref ip (s.iref ip + 1)).goto p x).pc p = x := goto_self x
  have hslot : ((s.setIref ip (s.iref ip + 1)).goto p x).slot = s.slot :=
    slot_goto (s := s.setIref ip (s.iref ip + 1)) (by rw [show (s.setIref ip (s.iref ip + 1)).pc p = s.pc p from rfl, hpc, hsk]; rfl)
  apply h.change (p := p) (f := ⟨0, by decide⟩) (y := (p, ⟨0, by decide⟩))
  exact {
    live := hl
    life := rfl
    ofile := fun _ _ => Or.inl rfl
    pc := fun r hr => goto_other x hr
    fork := fun q i hq => absurd (hself.symm.trans hq) (hfork q i)
    cleared := not_lt_cleared (by rw [hself, hcl])
    fault := h.fault
    file := fun _ _ => rfl
    mine := Or.inl rfl
    pipe := fun _ => Or.inl rfl
    slot := fun _ _ => by rw [hslot]
    refs := fun k => by
      rw [hslot, hself, hpc, hh]
      rfl
    inodes := fun k => by
      rw [hself, hpc, hx]
      simp only [State.goto, State.setIref, Pc.inodes, List.count_nil]
      split_ifs with hk
      · subst hk
        simp
      · have hk' : ip ≠ k := fun he => hk he.symm
        simp [hk']
    ends := fun k => by
      rw [hself, hpc, hends]
      rfl
    frees := fun k => by
      rw [hself, hpc, hfrees]
      rfl
    releases := fun k => by
      rw [hself, hpc, hrel]
      rfl
    typed := h.typed _
    pool := ⟨h.pages, h.nodup, h.unpiped⟩
    place := by
      rw [hself]
      exact At.congr (s := s) rfl rfl rfl rfl hat }

lemma Inv.enters (h : Inv s) {x : Pc P} (hr : s.Ready p = true) (hh : x.hands = []) (hsk : x.skip = none)
    (hlike : (Pc.idle : Pc P).Like x) (hcl : x.cleared = 0) (hat : At s p x) : Inv (s.goto p x) := by
  obtain ⟨hpc, hl⟩ := ready_iff.1 hr
  exact h.goto hl (by rw [hpc, hh]; rfl) (by rw [hpc, hsk]; rfl) (by rwa [hpc]) (not_lt_cleared hcl) hat

omit [DecidableEq P] in
lemma Inv.touch (h : Inv s) : s.touch f = s := by
  unfold State.touch
  apply if_neg
  rintro ⟨htype, hnone⟩
  have hend : ((s.file f).pipe, (s.file f).writable) ∈ (s.file f).ends := by simp [File.ends, htype]
  obtain ⟨b, hb, -⟩ := open_of_end (h.ends.right_pos hend)
  rw [hnone] at hb
  cases hb

theorem Inv.enter (h : Inv s) {l : Label P} (he : s.enter l = some s') : Inv s' := by
  cases l with
  | opens p ip dir rd wr =>
    cases ip with
    | none =>
      simp only [State.enter] at he
      split_ifs at he with hr
      cases he
      have hinv := h.enters (x := .idle) hr rfl rfl ⟨rfl, rfl, rfl, rfl, by simp⟩ rfl trivial
      exact hinv.called ⟨_, rfl⟩
    | some ip =>
      simp only [State.enter] at he
      split_ifs at he with hr hdir <;> cases he
      · have hinv := h.opens (x := .openPut ip) hr rfl rfl rfl rfl rfl rfl (by simp) rfl trivial
        exact hinv.called ⟨_, rfl⟩
      · have hinv := h.opens (x := .openAlloc ip rd wr) hr rfl rfl rfl rfl rfl rfl (by simp) rfl trivial
        exact hinv.called ⟨_, rfl⟩
  | dup p fd =>
    simp only [State.enter] at he
    split_ifs at he with hr
    obtain ⟨hpc, hl⟩ := ready_iff.1 hr
    split at he <;> cases he
    · rename_i f fd' hf hfd
      have hne : fd ≠ fd' := by
        rintro rfl
        rw [unusedFd_none hfd] at hf
        cases hf
      have hinv : Inv ((s.setSlot p fd' (some f)).goto p (.dup f fd')) := by
        apply h.setSlot hl
        case hlike =>
          rw [hpc]
          exact ⟨rfl, rfl, rfl, rfl, by simp⟩
        case hcl => exact not_lt_cleared rfl
        case hsk =>
          intro d hd
          rw [hpc]
          simp [Pc.skip, hd.symm]
        case hrefs =>
          intro k
          rw [hpc]
          simp [Pc.hands, Pc.skip, slotRef, unusedFd_none hfd]
        case hat =>
          refine ⟨if_pos ⟨rfl, rfl⟩, fd, hne, ?_⟩
          rw [← hf]
          exact if_neg fun hh => hne hh.2
      exact hinv.called ⟨_, rfl⟩
    · exact h.called ⟨_, rfl⟩
  | pipe p =>
    simp only [State.enter] at he
    split_ifs at he with hr
    cases he
    have hinv := h.enters (x := .pipe0) hr rfl rfl ⟨rfl, rfl, rfl, rfl, by simp⟩ rfl trivial
    exact hinv.called ⟨_, rfl⟩
  | close p fd =>
    simp only [State.enter] at he
    split_ifs at he with hr
    obtain ⟨hpc, hl⟩ := ready_iff.1 hr
    split at he <;> cases he
    · rename_i f hf
      have hinv : Inv ((s.setSlot p fd none).goto p (.closing [f] .close)) := by
        apply h.setSlot hl
        case hlike =>
          rw [hpc]
          exact ⟨rfl, rfl, rfl, rfl, by simp⟩
        case hcl => exact not_lt_cleared rfl
        case hsk =>
          intro d hd
          rw [hpc]
          rfl
        case hrefs =>
          intro k
          rw [hpc]
          simp [Pc.hands, Pc.skip, After.skip, slotRef, hf]
        case hat => trivial
      exact hinv.called ⟨_, rfl⟩
    · exact h.called ⟨_, rfl⟩
  | fork p q =>
    simp only [State.enter] at he
    split_ifs at he with hr
    cases he
    obtain ⟨hr, hq⟩ := hr
    obtain ⟨hpc, hl⟩ := ready_iff.1 hr
    have hqp : q ≠ p := by
      rintro rfl
      rw [hl] at hq
      cases hq
    apply h.lives (t := q) (v := .embryo) rfl hl
    case hh => rw [hpc]; rfl
    case hsk => rw [hpc]; rfl
    case hinodes => rw [hpc]; rfl
    case hends => rw [hpc]; rfl
    case hfrees => rw [hpc]; rfl
    case hrel => rw [hpc]; rfl
    case hcl => rfl
    case ht => exact Or.inl hq
    case hbusy => exact fun _ => Or.inr ⟨hqp, h.busy q (by rw [hq]; simp)⟩
    case hunused => simp
    case hparent =>
      intro q' i hi r i' hr'
      obtain ⟨rfl, -⟩ := Pc.fork.inj hi
      have hat := h.place r
      rw [hr'] at hat
      have hemb := hat.1
      rw [hq] at hemb
      cases hemb
    case hat => exact ⟨if_pos rfl, fun j _ => h.unused q hq j⟩
  | exit p =>
    simp only [State.enter] at he
    split_ifs at he with hr
    cases he
    have hinv := h.enters (x := .exit 0) hr rfl rfl ⟨rfl, rfl, rfl, rfl, by simp⟩ rfl trivial
    exact hinv.called ⟨_, rfl⟩
  | uses p fd =>
    simp only [State.enter] at he
    split_ifs at he with hr
    split at he <;> cases he
    · rwa [h.touch]
    · exact h
  | act p => cases he
  | kalloc => cases he
  | kfree g => cases he

/-- Every step keeps the invariant. -/
theorem Inv.step (h : Inv s) {l : Label P} (hs : step l s = some s') : Inv s' := by
  unfold Ftable.step at hs
  rw [if_neg (by simp [h.fault])] at hs
  split at hs
  · exact h.act hs
  · split at hs <;> cases hs
    · exact h
    · rename_i g rest hfree
      have hnodup := h.nodup
      have hunpiped := h.unpiped
      rw [hfree] at hnodup hunpiped
      exact { h with
        refs := h.refs
        nodup := (List.nodup_cons.1 hnodup).2
        unpiped := fun y hy => hunpiped y (List.mem_cons_of_mem _ hy)
        place := fun p => At.congr (s := s) rfl rfl rfl rfl (h.place p) }
  · split_ifs at hs with hg
    cases hs
    exact { h with
      refs := h.refs
      nodup := List.nodup_cons.2 ⟨hg.1, h.nodup⟩
      unpiped := fun y hy => by
        rcases List.mem_cons.1 hy with rfl | hy
        · exact hg.2
        · exact h.unpiped y hy
      place := fun p => At.congr (s := s) rfl rfl rfl rfl (h.place p) }
  · exact h.enter hs

end calls

end Ftable

end Os132

import Os132.Disk.Ide

/-!
# The driver does what the disk in memory does

The queue that hangs off `idequeue` is a list of distinct buffers whose requesters wait, and the disk works on its
head. Seen at the moments at which the disk completes a command, the driver takes the steps of memide.c: `State.mem` maps
a state of the driver to one of memide.c.
-/

namespace Os132

namespace Disk

variable {img : UInt32} {P : Type} {s s' : State P} {p : P} {b c d : BufId} {l t : List BufId}

/-! ### The queue -/

/-- `l` hangs off `h`. -/
def Chain (next : BufId → Option BufId) : Option BufId → List BufId → Prop
  | h, [] => h = none
  | h, b :: l => h = some b ∧ Chain next (next b) l

variable {next next' : BufId → Option BufId} {h : Option BufId}

lemma chain_congr (hl : Chain next h l) (hn : ∀ c ∈ l, next' c = next c) : Chain next' h l := by
  induction l generalizing h with
  | nil => exact hl
  | cons b l ih =>
    refine ⟨hl.1, ?_⟩
    rw [hn b List.mem_cons_self]
    exact ih hl.2 fun c hc => hn c (List.mem_cons_of_mem _ hc)

/-- Linking a new buffer behind the last one. -/
lemma chain_append (hl : Chain next h (c :: l)) (hn : (c :: l).Nodup) (hb : b ∉ c :: l) (hbn : next b = none) :
    Chain (fun x => if x = (c :: l).getLast (List.cons_ne_nil c l) then some b else next x) h (c :: l ++ [b]) := by
  induction l generalizing h c with
  | nil =>
    refine ⟨hl.1, ?_, ?_⟩
    · simp
    · have hbc : b ≠ c := fun hbc => hb (by simp [hbc])
      simp [Chain, hbc, hbn]
  | cons d l ih =>
    obtain ⟨hh, hd⟩ := hl
    rw [List.nodup_cons] at hn
    have hlast : (d :: l).getLast (List.cons_ne_nil d l) ∈ d :: l := List.getLast_mem _
    have hc : c ≠ (d :: l).getLast (List.cons_ne_nil d l) := fun hc => hn.1 (hc ▸ hlast)
    refine ⟨hh, ?_⟩
    have hrest := ih hd hn.2 fun hm => hb (List.mem_cons_of_mem _ hm)
    simp only [List.getLast_cons_cons]
    change Chain _ (if c = (d :: l).getLast (List.cons_ne_nil d l) then some b else next c) _
    rw [if_neg hc]
    exact hrest

lemma last_of_chain (fuel : ℕ) (hl : Chain s.qnext (some c) (c :: l)) (hf : l.length < fuel) :
    s.last fuel c = some ((c :: l).getLast (List.cons_ne_nil c l)) := by
  induction l generalizing c fuel with
  | nil =>
    obtain ⟨f, rfl⟩ := Nat.exists_eq_succ_of_ne_zero (show fuel ≠ 0 by omega)
    have hn : s.qnext c = none := hl.2
    simp [State.last, hn]
  | cons d l ih =>
    obtain ⟨f, rfl⟩ := Nat.exists_eq_succ_of_ne_zero (show fuel ≠ 0 by omega)
    have hn : s.qnext c = some d := hl.2.1
    simp only [State.last, hn, List.getLast_cons_cons]
    exact ih f ⟨rfl, hl.2.2⟩ (by simp at hf; omega)

/-- What holds of the driver, with the queue `l`. -/
structure Inv (img : UInt32) (s : State P) (l : List BufId) : Prop where
  chain : Chain s.qnext s.idequeue l
  nodup : l.Nodup
  held : ∀ b ∈ l, ∃ p, s.holder b = some p ∧ (s.pc p = .asleep b ∨ s.pc p = .woken b)
  asked : ∀ b ∈ l, (s.buf b).ready = false ∧ (s.buf b).dev = 1 ∧ (s.buf b).sector < disksize img
  asleep : ∀ p b, s.pc p = .asleep b → s.holder b = some p ∧ b ∈ l
  woken : ∀ p b, s.pc p = .woken b → s.holder b = some p ∧ (b ∈ l ∨ (s.buf b).ready = true)
  idle : l = [] → s.cmd = none ∧ s.done = false
  active : ∀ b t, l = b :: t → s.cmd = some (State.command (s.buf b))
  latch : ∀ b t, l = b :: t → s.done = true → (s.buf b).dirty = false → s.latch = s.disk 1 (s.buf b).sector
  log : s.arrived = s.served ++ l

lemma command_eq {v : Buf} (hd : v.dev = 1) (hs : v.sector < disksize img) :
    State.command v = if v.dirty then .write 1 v.sector v.data else .read 1 v.sector := by
  have := img.toNat_lt
  unfold State.command disksize at *
  rw [hd, Nat.mod_eq_of_lt (show v.sector < 2 ^ 28 by omega)]

lemma Inv.head (hi : Inv img s (b :: t)) : s.idequeue = some b := hi.chain.1

lemma Inv.empty (hi : Inv img s l) (hq : s.idequeue = none) : l = [] := by
  cases l with
  | nil => rfl
  | cons b l =>
    have := hi.chain.1
    rw [hq] at this
    cases this

lemma Inv.not_mem (hi : Inv img s l) (hh : s.holder b = some p) (hp : s.pc p = .idle) : b ∉ l := by
  intro hb
  obtain ⟨q, hq, hpc⟩ := hi.held b hb
  obtain rfl : q = p := Option.some.inj (hq.symm.trans hh)
  rw [hp] at hpc
  rcases hpc with hpc | hpc <;> cases hpc

/-! ### The steps -/

/-- `iderw` puts the buffer at the end of the queue, starts the disk if it is idle, and sleeps. -/
lemma iderw_spec [DecidableEq P] (hi : Inv img s l) (hh : s.holder b = some p) (hp : s.pc p = .idle) (hr : (s.buf b).ready = false)
    (hone : ¬ ((s.buf b).dev ≠ 0 ∧ s.havedisk1 = false)) :
    ∃ qnext, Chain qnext (some (l.headD b)) (l ++ [b]) ∧ s.iderw p b = some { s with
      qnext := qnext
      idequeue := some (l.headD b)
      arrived := s.arrived ++ [b]
      cmd := if l = [] then some (State.command (s.buf b)) else s.cmd
      done := if l = [] then false else s.done
      pc := fun q => if q = p then .asleep b else s.pc q } := by
  have hnot := hi.not_mem hh hp
  cases l with
  | nil =>
    have hq : s.idequeue = none := hi.chain
    have hc := (hi.idle rfl).1
    exact ⟨fun c => if c = b then none else s.qnext c, ⟨rfl, by simp [Chain]⟩,
      by simp [State.iderw, State.append, State.idestart, State.await, hh, hr, hone, hq, hc]⟩
  | cons c t =>
    have hq : s.idequeue = some c := hi.chain.1
    have hbc : c ≠ b := fun hbc => hnot (by simp [hbc])
    set s₁ : State P := { s with qnext := fun x => if x = b then none else s.qnext x } with hs₁
    have hchain : Chain s₁.qnext (some c) (c :: t) :=
      chain_congr (hq ▸ hi.chain) fun x hx => if_neg (by rintro rfl; exact hnot hx)
    have hlen := hi.nodup.length_le_card
    have hlast := last_of_chain NBUF hchain (by simp [NBUF] at hlen ⊢; omega)
    have happ : s.append b = some { s₁ with
        qnext := fun x => if x = (c :: t).getLast (List.cons_ne_nil c t) then some b else s₁.qnext x } := by
      unfold State.append
      dsimp only
      split
      · rename_i h
        rw [hq] at h
        cases h
      · rename_i c' h
        obtain rfl : c = c' := Option.some.inj (hq.symm.trans h)
        change Option.map _ (s₁.last NBUF c) = _
        rw [hlast]
        rfl
    refine ⟨_, chain_append hchain hi.nodup hnot (if_pos rfl), ?_⟩
    simp [State.iderw, happ, hh, hr, hone, State.await, hs₁, hq, hbc]

/-- `ideintr` takes the head off the queue and starts the next request. -/
lemma ideintr_spec (hi : Inv img s (b :: t)) : s.ideintr = some { s with
    idequeue := t.head?
    buf := fun c => if c = b then (s.buf b).complete s.latch else s.buf c
    pc := fun q => if s.pc q = Pc.asleep b then Pc.woken b else s.pc q
    cmd := t.head?.map fun c => State.command (s.buf c)
    done := false
    served := s.served ++ [b] } := by
  have hq := hi.head
  have htail := hi.chain.2
  cases t with
  | nil =>
    have hn : s.qnext b = none := htail
    simp [State.ideintr, hq, hn]
  | cons c t =>
    have hn : s.qnext b = some c := htail.1
    have hbc : c ≠ b := by
      have := hi.nodup
      simp only [List.nodup_cons, List.mem_cons, not_or] at this
      exact fun h => this.1.1 h.symm
    simp [State.ideintr, State.idestart, hq, hn, hbc]

/-- What a step does to buffers and disk. -/
def State.uses (s : State P) : Label P → List Use
  | .take _ b => [.take b]
  | .touch _ b v => [.touch b v]
  | .release _ b => [.release b]
  | .finish => s.idequeue.toList.map .iderw
  | _ => []

/-- The state of memide.c that a state of the driver stands for: a request is executed when the disk
completes it, also while its interrupt is pending. -/
def State.mem (s : State P) : Mem where
  buf := fun b => if s.done = true ∧ s.idequeue = some b then (s.buf b).complete s.latch else s.buf b
  busy := fun b => (s.holder b).isSome
  disk := s.disk 1

/-- The requests that the disk has completed. -/
def State.completed (s : State P) : List BufId := s.served ++ if s.done then s.idequeue.toList else []

/-- The requests among the uses. -/
def requests : List Use → List BufId
  | [] => []
  | .iderw b :: us => b :: requests us
  | _ :: us => requests us

lemma inv_take (hi : Inv img s l) (hb : s.holder b = none) :
    Inv img { s with holder := fun c => if c = b then some p else s.holder c } l := by
  have h1 := hi.held
  have h2 := hi.asleep
  have h3 := hi.woken
  refine ⟨hi.chain, hi.nodup, ?_, hi.asked, ?_, ?_, hi.idle, hi.active, hi.latch, hi.log⟩ <;> grind

lemma inv_touch {v : Buf} (hi : Inv img s l) (hb : s.holder b = some p) (hp : s.pc p = .idle) :
    Inv img { s with buf := fun c => if c = b then v else s.buf c } l := by
  have hnot := hi.not_mem hb hp
  have h1 := hi.asked
  have h2 := hi.woken
  have h3 := hi.active
  have h4 := hi.latch
  refine ⟨hi.chain, hi.nodup, hi.held, ?_, hi.asleep, ?_, hi.idle, ?_, ?_, hi.log⟩ <;> grind

lemma inv_release (hi : Inv img s l) (hb : s.holder b = some p) (hp : s.pc p = .idle) :
    Inv img { s with holder := fun c => if c = b then none else s.holder c } l := by
  have hnot := hi.not_mem hb hp
  have h1 := hi.held
  have h2 := hi.asleep
  have h3 := hi.woken
  refine ⟨hi.chain, hi.nodup, ?_, hi.asked, ?_, ?_, hi.idle, hi.active, hi.latch, hi.log⟩ <;> grind

lemma inv_iderw [DecidableEq P] (hi : Inv img s l) (hb : s.holder b = some p) (hp : s.pc p = .idle) (hr : (s.buf b).ready = false)
    (hd : (s.buf b).dev = 1) (hs : (s.buf b).sector < disksize img) {qnext : BufId → Option BufId}
    (hc : Chain qnext (some (l.headD b)) (l ++ [b])) : Inv img { s with
      qnext := qnext
      idequeue := some (l.headD b)
      arrived := s.arrived ++ [b]
      cmd := if l = [] then some (State.command (s.buf b)) else s.cmd
      done := if l = [] then false else s.done
      pc := fun q => if q = p then .asleep b else s.pc q } (l ++ [b]) := by
  have hnot := hi.not_mem hb hp
  have h1 := hi.held
  have h2 := hi.asleep
  have h3 := hi.woken
  have h4 := hi.asked
  refine ⟨hc, List.nodup_append.2 ⟨hi.nodup, by simp, by grind⟩, ?_, ?_, ?_, ?_, by simp, ?_, ?_, ?_⟩
  · intro c hc
    rw [List.mem_append, List.mem_singleton] at hc
    grind
  · intro c hc
    rw [List.mem_append, List.mem_singleton] at hc
    grind
  · grind
  · grind
  · intro c t hl
    cases l with
    | nil =>
      cases hl
      rfl
    | cons c' l' =>
      obtain ⟨rfl, -⟩ := List.cons.inj hl
      exact hi.active c' l' rfl
  · intro c t hl hdone hdirty
    cases l with
    | nil => cases hdone
    | cons c' l' =>
      obtain ⟨rfl, -⟩ := List.cons.inj hl
      exact hi.latch c' l' rfl hdone hdirty
  · change s.arrived ++ [b] = s.served ++ (l ++ [b])
    rw [hi.log, List.append_assoc]

lemma inv_intr (hi : Inv img s (b :: t)) : Inv img { s with
    idequeue := t.head?
    buf := fun c => if c = b then (s.buf b).complete s.latch else s.buf c
    pc := fun q => if s.pc q = Pc.asleep b then Pc.woken b else s.pc q
    cmd := t.head?.map fun c => State.command (s.buf c)
    done := false
    served := s.served ++ [b] } t := by
  have hn := hi.nodup
  rw [List.nodup_cons] at hn
  have h1 := hi.held
  have h2 := hi.asleep
  have h3 := hi.woken
  have h4 := hi.asked
  have hready : ((s.buf b).complete s.latch).ready = true := rfl
  refine ⟨?_, hn.2, ?_, ?_, ?_, ?_, ?_, ?_, ?_, ?_⟩
  · have htail := hi.chain.2
    cases t with
    | nil => rfl
    | cons c t => exact ⟨rfl, htail.2⟩
  · grind
  · grind
  · grind
  · grind
  · rintro rfl
    exact ⟨rfl, rfl⟩
  · rintro c t' rfl
    simp only [List.head?_cons, Option.map_some]
    rw [if_neg (fun hcb => hn.1 (by simp [hcb]))]
  · intro _ _ _ hd
    cases hd
  · change s.arrived = s.served ++ [b] ++ t
    rw [hi.log, List.append_assoc]
    rfl

lemma Inv.busy (hi : Inv img s l) (hc : s.cmd ≠ none) : ∃ b t, l = b :: t := by
  cases l with
  | nil => exact absurd (hi.idle rfl).1 hc
  | cons b t => exact ⟨b, t, rfl⟩

lemma finish_cases (h : s.finish = some s') : s.done = false ∧ ((∃ dev x, s.cmd = some (.read dev x) ∧
    s' = { s with done := true, latch := s.disk dev x }) ∨ ∃ dev x data, s.cmd = some (.write dev x data) ∧
    s' = { s with done := true, disk := fun d y => if d = dev ∧ y = x then data else s.disk d y }) := by
  unfold State.finish at h
  split at h
  · cases h
  · rename_i c hc
    split_ifs at h with hd
    refine ⟨by simpa using hd, ?_⟩
    cases c with
    | read dev x => exact Or.inl ⟨dev, x, hc, (Option.some.inj h).symm⟩
    | write dev x data => exact Or.inr ⟨dev, x, data, hc, (Option.some.inj h).symm⟩

lemma inv_finish (hi : Inv img s l) (h : s.finish = some s') : Inv img s' l := by
  obtain ⟨hd, ⟨dev, x, hc, rfl⟩ | ⟨dev, x, data, hc, rfl⟩⟩ := finish_cases h
  · obtain ⟨b, t, rfl⟩ := hi.busy (by simp [hc])
    have hcmd := hi.active b t rfl
    obtain ⟨-, hdev, hsec⟩ := hi.asked b List.mem_cons_self
    refine ⟨hi.chain, hi.nodup, hi.held, hi.asked, hi.asleep, hi.woken, by simp, hi.active, fun b' t' hl _ hdirty => ?_, hi.log⟩
    obtain ⟨rfl, -⟩ := List.cons.inj hl
    rw [hc, command_eq hdev hsec, if_neg (by simpa using hdirty)] at hcmd
    cases hcmd
    rfl
  · obtain ⟨b, t, rfl⟩ := hi.busy (by simp [hc])
    have hcmd := hi.active b t rfl
    obtain ⟨-, hdev, hsec⟩ := hi.asked b List.mem_cons_self
    refine ⟨hi.chain, hi.nodup, hi.held, hi.asked, hi.asleep, hi.woken, by simp, hi.active, fun b' t' hl _ hdirty => ?_, hi.log⟩
    obtain ⟨rfl, -⟩ := List.cons.inj hl
    have hdirty' : (s.buf b).dirty = false := hdirty
    rw [hc, command_eq hdev hsec, hdirty'] at hcmd
    cases hcmd

variable [DecidableEq P]

/-- **One step** of the driver: the invariant holds again, and memide.c takes the uses of the step. -/
theorem step_spec {lb : Label P} (hi : Inv img s l) (h : step img lb s = some s') : (∃ l', Inv img s' l') ∧
    Mem.uses img (s.uses lb) s.mem = some s'.mem ∧ s'.completed = s.completed ++ requests (s.uses lb) := by
  cases lb with
  | take p b =>
    simp only [step] at h
    split_ifs at h with hb
    cases h
    refine ⟨⟨l, inv_take hi hb⟩, ?_, by simp [State.completed, State.uses, requests]⟩
    simp only [State.uses, Mem.uses, Mem.use, State.mem, Option.bind_some, Option.some.injEq, Mem.mk.injEq, true_and, and_true]
    funext c
    split_ifs <;> rfl
  | touch p b v =>
    simp only [step] at h
    split_ifs at h with hb
    cases h
    refine ⟨⟨l, inv_touch hi hb.1 hb.2⟩, ?_, by simp [State.completed, State.uses, requests]⟩
    have hnot := hi.not_mem hb.1 hb.2
    simp only [State.uses, Mem.uses, Mem.use, State.mem, Option.bind_some, Option.some.injEq, Mem.mk.injEq, and_true]
    funext c
    by_cases hcb : c = b
    · subst hcb
      have hq : s.idequeue ≠ some c := fun hq => by
        cases l with
        | nil => rw [show s.idequeue = none from hi.chain] at hq; cases hq
        | cons b' t => exact hnot (by simp [Option.some.inj (hi.head.symm.trans hq)])
      simp [hq]
    · simp [hcb]
  | release p b =>
    simp only [step] at h
    split_ifs at h with hb
    cases h
    refine ⟨⟨l, inv_release hi hb.1 hb.2⟩, ?_, by simp [State.completed, State.uses, requests]⟩
    simp only [State.uses, Mem.uses, Mem.use, State.mem, Option.bind_some, Option.some.injEq, Mem.mk.injEq, true_and, and_true]
    funext c
    split_ifs <;> rfl
  | iderw p b =>
    simp only [step] at h
    split_ifs at h with hb
    obtain ⟨hh, hp, hd, hs⟩ := hb
    have hr : (s.buf b).ready = false := by
      by_contra hr
      simp [State.iderw, hh, Bool.not_eq_false _ ▸ hr] at h
    have hone : ¬ ((s.buf b).dev ≠ 0 ∧ s.havedisk1 = false) := by
      intro hone
      simp [State.iderw, hh, hr, hone] at h
    obtain ⟨qnext, hc, heq⟩ := iderw_spec hi hh hp hr hone
    rw [heq] at h
    cases h
    refine ⟨⟨l ++ [b], inv_iderw hi hh hp hr hd hs hc⟩, ?_, ?_⟩
    · cases l with
      | nil => simp [State.uses, Mem.uses, State.mem, (hi.idle rfl).2]
      | cons c t => simp [State.uses, Mem.uses, State.mem, hi.head]
    · cases l with
      | nil => simp [State.completed, State.uses, requests, (hi.idle rfl).2]
      | cons c t => simp [State.completed, State.uses, requests, hi.head]
  | finish =>
    have hinv := inv_finish hi h
    refine ⟨⟨l, hinv⟩, ?_⟩
    obtain ⟨hd, hcase⟩ := finish_cases h
    obtain ⟨b, t, rfl⟩ : ∃ b t, l = b :: t := hi.busy (by rcases hcase with ⟨_, _, hc, -⟩ | ⟨_, _, _, hc, -⟩ <;> simp [hc])
    have hcmd := hi.active b t rfl
    obtain ⟨hr, hdev, hsec⟩ := hi.asked b List.mem_cons_self
    obtain ⟨q, hq, -⟩ := hi.held b List.mem_cons_self
    have hhead := hi.head
    rw [command_eq hdev hsec] at hcmd
    have hnsec : ¬ (s.buf b).sector ≥ disksize img := by omega
    rcases hcase with ⟨dev, x, hc, rfl⟩ | ⟨dev, x, data, hc, rfl⟩
    · refine ⟨?_, by simp [State.completed, State.uses, requests, hd, hhead]⟩
      rw [hc] at hcmd
      cases hdirty : (s.buf b).dirty with
      | true => simp [hdirty] at hcmd
      | false =>
        simp only [hdirty, Option.some.injEq, Bool.false_eq_true, if_false, Cmd.read.injEq] at hcmd
        obtain ⟨rfl, rfl⟩ := hcmd
        simp [State.uses, Mem.uses, Mem.use, Mem.iderw, State.mem, hhead, hd, hq, hr, hdev, hnsec, hdirty]
        funext c
        by_cases hcb : c = b
        · subst hcb
          simp [Buf.complete, hdirty, hdev]
        · simp [hcb, Ne.symm hcb]
    · refine ⟨?_, by simp [State.completed, State.uses, requests, hd, hhead]⟩
      rw [hc] at hcmd
      cases hdirty : (s.buf b).dirty with
      | false => simp [hdirty] at hcmd
      | true =>
        simp only [hdirty, Option.some.injEq, if_true, Cmd.write.injEq] at hcmd
        obtain ⟨rfl, rfl, rfl⟩ := hcmd
        simp [State.uses, Mem.uses, Mem.use, Mem.iderw, State.mem, hhead, hd, hq, hr, hdev, hnsec, hdirty]
        funext c
        by_cases hcb : c = b
        · subst hcb
          simp [Buf.complete, hdirty, hdev]
        · simp [hcb, Ne.symm hcb]
  | intr =>
    simp only [step] at h
    split_ifs at h with hc
    cases l with
    | nil =>
      have hq : s.idequeue = none := hi.chain
      have hd := (hi.idle rfl).2
      rw [State.ideintr, hq] at h
      cases h
      refine ⟨⟨[], ?_⟩, by simp [State.uses, Mem.uses, State.mem, hd], by simp [State.completed, State.uses, requests, hd]⟩
      exact ⟨rfl, hi.nodup, hi.held, hi.asked, hi.asleep, hi.woken, fun _ => ⟨(hi.idle rfl).1, rfl⟩, hi.active,
        by simp, hi.log⟩
    | cons b t =>
      have hd : s.done = true := by simpa [hi.active b t rfl] using hc
      rw [ideintr_spec hi] at h
      cases h
      refine ⟨⟨t, inv_intr hi⟩, ?_, by simp [State.completed, State.uses, requests, hd, hi.head]⟩
      simp only [State.uses, Mem.uses, State.mem, hd, hi.head, Option.some.injEq, Mem.mk.injEq, and_true, true_and]
      funext c
      by_cases hcb : c = b
      · simp [hcb]
      · simp [hcb, Ne.symm hcb]
  | run p =>
    simp only [step] at h
    split at h
    · rename_i b hp
      cases h
      refine ⟨⟨l, ?_⟩, rfl, (List.append_nil _).symm⟩
      have h1 := hi.held
      have h2 := hi.asleep
      have h3 := hi.woken
      have h4 := hi.asked
      refine ⟨hi.chain, hi.nodup, ?_, hi.asked, ?_, ?_, hi.idle, hi.active, hi.latch, hi.log⟩ <;> simp only [State.await] <;> grind
    · cases h
  | kill p =>
    simp only [step] at h
    split at h
    · rename_i b hp
      cases h
      refine ⟨⟨l, ?_⟩, rfl, by simp [State.completed, State.uses, requests]⟩
      have h1 := hi.held
      have h2 := hi.asleep
      have h3 := hi.woken
      refine ⟨hi.chain, hi.nodup, ?_, hi.asked, ?_, ?_, hi.idle, hi.active, hi.latch, hi.log⟩ <;> grind
    · cases h
      exact ⟨⟨l, hi⟩, rfl, by simp [State.uses, requests]⟩

omit [DecidableEq P] in
lemma inv_start (h : Start s) : Inv img s [] := by
  refine ⟨h.idequeue, List.nodup_nil, by simp, by simp, fun p b hp => ?_, fun p b hp => ?_, fun _ => ⟨h.cmd, h.done⟩, by simp, by simp, ?_⟩
  · rw [h.pc] at hp
    cases hp
  · rw [h.pc] at hp
    cases hp
  · rw [h.arrived, h.served]
    rfl

/-! ### Runs -/

/-- What the processes and the disk have done to buffers and disk in the first `k` steps. -/
def trace {n : ℕ} (r : Lts.Run (Start (P := P)) (step img) n) : ℕ → List Use
  | 0 => []
  | k + 1 => trace r k ++ (r.state k).uses (r.label k)

lemma uses_append {us vs : List Use} {m m' : Mem} (h : Mem.uses img us m = some m') :
    Mem.uses img (us ++ vs) m = Mem.uses img vs m' := by
  induction us generalizing m with
  | nil =>
    cases h
    rfl
  | cons u us ih =>
    obtain ⟨m₁, hu, hrest⟩ := Option.bind_eq_some_iff.1 h
    simp only [List.cons_append, Mem.uses, hu, Option.bind_some]
    exact ih hrest

omit [DecidableEq P] in
lemma requests_append {us vs : List Use} : requests (us ++ vs) = requests us ++ requests vs := by
  induction us with
  | nil => rfl
  | cons u us ih => cases u <;> simp [requests, ih]

/-- What holds of the driver after `k` steps of a run. -/
structure Faithful {n : ℕ} (r : Lts.Run (Start (P := P)) (step img) n) (k : ℕ) : Prop where
  /-- memide.c does the same uses and comes to the same buffers and disk -/
  same : Mem.uses img (trace r k) (r.state 0).mem = some (r.state k).mem
  /-- when the queue is empty these are the buffers and the disk themselves -/
  final : (r.state k).idequeue = none → (r.state k).mem = ⟨(r.state k).buf, fun b => ((r.state k).holder b).isSome, (r.state k).disk 1⟩
  /-- the requests are completed once each, in the order of their arrival, the head of the queue next -/
  order : ∃ l, Chain (r.state k).qnext (r.state k).idequeue l ∧ (r.state k).arrived = (r.state k).served ++ l ∧
    requests (trace r k) = (r.state k).completed
  /-- the disk works on the head of the queue, and only on it -/
  active : (r.state k).cmd = (r.state k).idequeue.map fun b => State.command ((r.state k).buf b)
  /-- a process that leaves `iderw` has its buffer valid and clean -/
  returns : ∀ p b lb s', (r.state k).pc p = .asleep b ∨ (r.state k).pc p = .woken b → step img lb (r.state k) = some s' →
    s'.pc p = .idle → ((s'.buf b).valid = true ∧ (s'.buf b).dirty = false)
  /-- the disk or its handler can always go on -/
  moves : (r.state k).idequeue ≠ none → (step img .finish (r.state k)).isSome = true ∨ (step img .intr (r.state k)).isSome = true

omit [DecidableEq P] in
lemma Inv.active_eq (hi : Inv img s l) : s.cmd = s.idequeue.map fun b => State.command (s.buf b) := by
  cases l with
  | nil => rw [(hi.idle rfl).1, show s.idequeue = none from hi.chain, Option.map_none]
  | cons b t => rw [hi.active b t rfl, hi.head, Option.map_some]

/-- A process leaves `iderw` only with its buffer ready. -/
lemma Inv.returns (hi : Inv img s l) {lb : Label P} (hp : s.pc p = .asleep b ∨ s.pc p = .woken b)
    (h : step img lb s = some s') (hidle : s'.pc p = .idle) : (s'.buf b).valid = true ∧ (s'.buf b).dirty = false := by
  have hne : s.pc p ≠ .idle := by rcases hp with hp | hp <;> simp [hp]
  have hsame (hpc : s'.pc = s.pc) : False := hne (hpc ▸ hidle)
  cases lb with
  | run q =>
    simp only [step] at h
    split at h
    · rename_i c hq
      cases h
      simp only [State.await] at hidle
      by_cases hpq : p = q
      · subst hpq
        have hcb : c = b := by
          rcases hp with hp | hp
          · rw [hp] at hq
            cases hq
          · rw [hp] at hq
            exact (Pc.woken.inj hq).symm
        subst hcb
        rw [if_pos rfl] at hidle
        split_ifs at hidle with hr
        simpa [Buf.ready, State.await] using hr
      · rw [if_neg hpq] at hidle
        exact absurd hidle hne
    · cases h
  | iderw q c =>
    simp only [step] at h
    split_ifs at h with hc
    obtain ⟨hh, hq, -, -⟩ := hc
    have hr : (s.buf c).ready = false := by
      by_contra hr
      simp [State.iderw, hh, Bool.not_eq_false _ ▸ hr] at h
    have hone : ¬ ((s.buf c).dev ≠ 0 ∧ s.havedisk1 = false) := by
      intro hone
      simp [State.iderw, hh, hr, hone] at h
    obtain ⟨qnext, -, heq⟩ := iderw_spec hi hh hq hr hone
    rw [heq] at h
    cases h
    by_cases hpq : p = q
    · subst hpq
      exact absurd hq hne
    · exact absurd ((if_neg hpq).symm.trans hidle) hne
  | intr =>
    simp only [step] at h
    split_ifs at h
    cases l with
    | nil =>
      rw [State.ideintr, show s.idequeue = none from hi.chain] at h
      cases h
      exact absurd hidle hne
    | cons c t =>
      rw [ideintr_spec hi] at h
      cases h
      dsimp only at hidle
      split_ifs at hidle
      exact absurd hidle hne
  | kill q =>
    simp only [step] at h
    split at h <;> cases h
    · dsimp only at hidle
      split_ifs at hidle
      exact absurd hidle hne
    · exact absurd hidle hne
  | finish =>
    obtain ⟨-, ⟨_, _, -, rfl⟩ | ⟨_, _, _, -, rfl⟩⟩ := finish_cases h
    · exact absurd hidle hne
    · exact absurd hidle hne
  | take | touch | release =>
    simp only [step] at h
    split_ifs at h
    cases h
    exact absurd hidle hne

lemma Inv.moves (hi : Inv img s l) (hq : s.idequeue ≠ none) :
    (step img .finish s).isSome = true ∨ (step img .intr s).isSome = true := by
  cases l with
  | nil => exact absurd hi.chain hq
  | cons b t =>
    cases hd : s.done with
    | false =>
      left
      have hc := hi.active b t rfl
      generalize State.command (s.buf b) = c at hc
      cases c <;> simp [step, State.finish, hc, hd]
    | true =>
      right
      simp [step, hd, ideintr_spec hi]

/-- **The interrupt-driven driver refines the disk in memory**: in every run of requests, interrupts, wakeups and kills. -/
theorem refines_memide (img : UInt32) {n : ℕ} (r : Lts.Run (Start (P := P)) (step img) n) (k : ℕ) (hk : k ≤ n) : Faithful r k := by
  have hrun : (∃ l, Inv img (r.state k) l) ∧ Mem.uses img (trace r k) (r.state 0).mem = some (r.state k).mem ∧
      requests (trace r k) = (r.state k).completed := by
    induction k with
    | zero =>
      refine ⟨⟨[], inv_start r.starts⟩, rfl, ?_⟩
      simp [trace, requests, State.completed, r.starts.served, r.starts.done]
    | succ k ih =>
      obtain ⟨⟨l, hi⟩, hs, hq⟩ := ih (by omega)
      obtain ⟨hi', hs', hq'⟩ := step_spec hi (r.steps k (by omega))
      refine ⟨hi', ?_, ?_⟩
      · rw [trace, uses_append hs, hs']
      · rw [trace, requests_append, hq, hq']
  obtain ⟨⟨l, hi⟩, hsame, hreq⟩ := hrun
  refine ⟨hsame, fun hq => ?_, ⟨l, hi.chain, hi.log, hreq⟩, hi.active_eq, fun p b lb s' hp h hidle => hi.returns hp h hidle, hi.moves⟩
  simp [State.mem, hq]

/-- A disk with nothing to do. -/
def quiet : State Bool where
  buf := fun b => ⟨false, false, 1, b.val, fun _ => 0⟩
  qnext := fun _ => none
  idequeue := none
  holder := fun _ => none
  pc := fun _ => .idle
  disk := fun _ x _ => x.toUInt8
  havedisk1 := true
  cmd := none
  done := false
  latch := fun _ => 0
  arrived := []
  served := []

instance : Inhabited (Label Bool) := ⟨.finish⟩

/-- Two processes read two sectors at the same time. -/
def twoReads : List (Label Bool) :=
  [.take false 0, .take true 1, .iderw false 0, .iderw true 1, .finish, .intr, .run false, .finish, .intr, .run true]

theorem refines_memide_twoReads : ∃ r : Lts.Run (Start (P := Bool)) (step 524288) twoReads.length,
    Faithful r twoReads.length ∧ (r.state twoReads.length).served = [0, 1] := by
  have hstart : Start quiet := ⟨rfl, fun _ => rfl, fun _ => rfl, rfl, rfl, rfl, rfl⟩
  obtain ⟨r, -, hp⟩ := Lts.exists_run_of_check (step 524288) twoReads (fun _ _ _ => true)
    (fun s => decide (s.served = [0, 1])) hstart (by decide +kernel)
  exact ⟨r, refines_memide 524288 r _ le_rfl, by simpa using hp⟩

end Disk

end Os132

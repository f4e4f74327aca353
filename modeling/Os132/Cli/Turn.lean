import Os132.Cli.Machine
import Mathlib.Data.List.Basic

/-!
# The steps of a thread

What a thread and the CPU it runs on agree on: `ncli` is the depth of the nest that the thread has
open, interrupts are off in an open nest, the CPU holds the locks of the thread. Every step of the
thread keeps this; and the outermost `pushcli` saves the interrupt flag, which the outermost
`popcli` restores.
-/

namespace Os132

namespace Cli

/-- Interrupts come where a nest is not open, so they return there. -/
def Thread.FramesOk {Lock : Type} (x : Thread Lock) : Prop := ∀ f ∈ x.frames, f = .idle ∨ ∃ lk, f = .read true lk

/-- A CPU and the thread on it agree. -/
structure Fine {Cpu Proc Lock : Type} (ptable : Lock) (c : Cpu) (holder : Lock → Option Cpu) (k : CpuState Cpu Proc) (x : Thread Lock) :
    Prop where
  ncli : k.ncli = x.depth
  off : 0 < x.depth → k.flag = false
  holder : ∀ l, holder l = some c ↔ l ∈ x.locks
  nodup : x.locks.Nodup
  only : x.pc = .leaving ∨ x.pc = .resume → x.locks = [ptable] ∧ x.pushes = 0 ∧ k.curr.isProc = true
  read : ∀ e lk, x.pc = .read e lk → k.flag = e
  frames : x.FramesOk
  running : k.curr.isProc = true → x.running = true ∨ x.pc = .leaving
  stopped : x.pc = .leaving → x.running = false
  panic : k.panic = none ∨ k.panic = some .acquire

/-- What a step of a thread does to the locks of other CPUs and to the saved interrupt state. -/
structure Moved {Cpu Proc Lock : Type} (c : Cpu) (holder : Lock → Option Cpu) (k : CpuState Cpu Proc)
    (x : Thread Lock) (k' : CpuState Cpu Proc) (x' : Thread Lock) (holder' : Lock → Option Cpu) : Prop where
  curr : k'.curr = k.curr
  others : ∀ l d, d ≠ c → (holder' l = some d ↔ holder l = some d)
  /-- In an open nest the saved state stays. -/
  keep : 0 < x.depth → x.pc ≠ .resume → x'.pc ≠ .resume ∧ k'.intena = k.intena
  /-- A thread that was resumed takes its saved state with it. -/
  back : x.pc = .resume → x'.pc ≠ .resume ∧ k'.intena = x.intena ∧ x'.depth = x.depth
  /-- What the outermost `pushcli` saves is the interrupt flag. -/
  first : x.depth = 0 → 0 < x'.depth → x'.pc ≠ .resume ∧ k'.intena = k.flag
  /-- The outermost `popcli` sets the flag as it was saved. -/
  last : 0 < x.depth → x'.depth = 0 → k'.flag = k.intena

section Threads

variable {Cpu Proc Lock : Type} {ptable lk : Lock} {c d : Cpu} {p : Proc} {holder holder' : Lock → Option Cpu}
  {k k' : CpuState Cpu Proc} {x x' : Thread Lock} {n : ℕ} {e : Bool}

lemma Thread.Only.depth (h : x.Only lk) : x.depth = 1 := by
  rw [Thread.depth, h.1, h.2.1, h.2.2]
  rfl

lemma Thread.Bare.depth (h : x.Bare) : x.depth = 0 := by
  rw [Thread.depth, h.1, h.2.1, h.2.2]
  rfl

lemma popcli_eq (hn : k.ncli = (n + 1 : ℕ)) (hf : k.flag = false) :
    k.popcli = { k with ncli := n, flag := n = 0 ∧ k.intena = true } := by
  have hsub : k.ncli - 1 = n := by omega
  have hzero : ((n : ℤ) = 0) = (n = 0) := by
    apply propext
    omega
  rw [CpuState.popcli, hf, if_neg (by simp), hsub, if_neg (by omega)]
  simp only [hzero]

namespace Fine

lemma runs (h : Fine ptable c holder k x) (hne : x.pc ≠ .leaving) (hc : k.curr.isProc = true) : x.running = true :=
  (h.running hc).resolve_right hne

lemma of_flag (h : Fine ptable c holder k x) (hf : k.flag = true) :
    x.locks = [] ∧ x.pushes = 0 ∧ x.pc.extra = 0 := by
  have hz : x.depth = 0 := by
    by_contra hne
    have := h.off (by omega)
    simp [hf] at this
  rw [Thread.depth] at hz
  exact ⟨List.length_eq_zero_iff.mp (by omega), by omega, by omega⟩

lemma flag (h : Fine ptable c holder k x) (hb : x.Bare) (b : Bool) :
    Fine ptable c holder { k with flag := b } x ∧ Moved c holder k x { k with flag := b } x holder := by
  have hd := hb.depth
  have hpc := hb.1
  constructor
  · exact ⟨h.ncli, by omega, h.holder, h.nodup, h.only, by simp [hpc], h.frames, h.running, h.stopped, h.panic⟩
  · exact ⟨rfl, fun _ _ _ => Iff.rfl, by omega, by simp [hpc], by omega, by omega⟩

lemma trap (h : Fine ptable c holder k x) (hf : k.flag = true) :
    Fine ptable c holder { k with flag := false } { x with pc := .idle, frames := x.pc :: x.frames } ∧
      Moved c holder k x { k with flag := false } { x with pc := .idle, frames := x.pc :: x.frames } holder := by
  obtain ⟨hl, hp, hx⟩ := h.of_flag hf
  have hd : x.depth = 0 := by rw [Thread.depth, hl, hp, hx]; rfl
  have hd' : ({ x with pc := .idle, frames := x.pc :: x.frames } : Thread Lock).depth = 0 := by
    simp [Thread.depth, hl, hp, Pc.extra]
  have hleave : x.pc ≠ .leaving ∧ x.pc ≠ .resume := by
    constructor <;> intro hpc <;> simpa [hl] using (h.only (by tauto)).1
  have hpc : x.pc = .idle ∨ ∃ lk, x.pc = .read true lk := by
    cases hc : x.pc with
    | idle => exact Or.inl rfl
    | read e lk => exact Or.inr ⟨lk, by rw [← h.read e lk hc, hf]⟩
    | spin lk => simp [hc, Pc.extra] at hx
    | unlocked => simp [hc, Pc.extra] at hx
    | leaving => exact absurd hc hleave.1
    | resume => exact absurd hc hleave.2
  constructor
  · constructor
    · change k.ncli = _
      rw [hd', h.ncli, hd]
    · intro
      rfl
    · exact h.holder
    · exact h.nodup
    · simp
    · simp
    · intro f hf
      rcases List.mem_cons.mp hf with rfl | hf
      · exact hpc
      · exact h.frames f hf
    · exact fun hc => Or.inl (h.runs hleave.1 hc)
    · simp
    · exact h.panic
  · exact ⟨rfl, fun _ _ _ => Iff.rfl, by omega, fun hr => absurd hr hleave.2, by omega, by omega⟩

lemma iret {pc : Pc Lock} {frames : List (Pc Lock)} (h : Fine ptable c holder k x) (hb : x.Bare)
    (hfr : x.frames = pc :: frames) :
    Fine ptable c holder { k with flag := true } { x with pc := pc, frames := frames } ∧
      Moved c holder k x { k with flag := true } { x with pc := pc, frames := frames } holder := by
  have hd := hb.depth
  have hpc := h.frames pc (by simp [hfr])
  have hd' : ({ x with pc := pc, frames := frames } : Thread Lock).depth = 0 := by
    rcases hpc with rfl | ⟨lk, rfl⟩ <;> simp [Thread.depth, hb.2.1, hb.2.2, Pc.extra]
  have hsafe : pc ≠ .leaving ∧ pc ≠ .resume := by
    rcases hpc with rfl | ⟨lk, rfl⟩ <;> simp
  constructor
  · constructor
    · change k.ncli = _
      rw [hd', h.ncli, hd]
    · intro hlt
      omega
    · exact h.holder
    · exact h.nodup
    · intro hor
      exact absurd hor (by simp [hsafe])
    · intro e lk he
      change pc = .read e lk at he
      rcases hpc with rfl | ⟨lk', rfl⟩
      · simp at he
      · injection he with he
    · intro f hf
      exact h.frames f (by rw [hfr]; exact List.mem_cons_of_mem pc hf)
    · exact fun hc => Or.inl (h.runs (by simp [hb.1]) hc)
    · exact fun he => absurd he hsafe.1
    · exact h.panic
  · exact ⟨rfl, fun _ _ _ => Iff.rfl, by omega, by simp [hb.1], by omega, by omega⟩

/-- The rest of `pushcli`: the nest is one deeper and interrupts are off. -/
lemma cli {o : Option Lock} {panic : Option Panic} (h : Fine ptable c holder k x) (hpc : x.pc = .read e o)
    (hp : panic = none ∨ panic = some .acquire) (hd : x'.depth = x.depth + 1) (hl : x'.locks = x.locks)
    (hf : x'.frames = x.frames) (hr : x'.running = x.running) (hpc' : x'.pc = .idle ∨ ∃ lk, x'.pc = .spin lk) :
    Fine ptable c holder { k.cli e with panic := panic } x' ∧
      Moved c holder k x { k.cli e with panic := panic } x' holder := by
  have hsafe : x'.pc ≠ .leaving ∧ x'.pc ≠ .resume ∧ ∀ e lk, x'.pc ≠ .read e lk := by
    rcases hpc' with hpc' | ⟨lk, hpc'⟩ <;> simp [hpc']
  constructor
  · constructor
    · change k.ncli + 1 = _
      rw [h.ncli, hd]
      rfl
    · intro
      rfl
    · rw [hl]
      exact h.holder
    · rw [hl]
      exact h.nodup
    · intro hor
      exact absurd hor (by simp [hsafe.1, hsafe.2.1])
    · intro e' lk he
      exact absurd he (hsafe.2.2 e' lk)
    · intro f hmem
      exact h.frames f (hf ▸ hmem)
    · intro hc
      rw [hr]
      exact Or.inl (h.runs (by simp [hpc]) hc)
    · exact fun he => absurd he hsafe.1
    · exact hp
  · constructor
    · rfl
    · exact fun _ _ _ => Iff.rfl
    · intro hpos _
      have hne : ¬ k.ncli = 0 := by
        have := h.ncli
        omega
      exact ⟨hsafe.2.1, if_neg hne⟩
    · simp [hpc]
    · intro hz _
      have hncli : k.ncli = 0 := by rw [h.ncli, hz]; rfl
      exact ⟨hsafe.2.1, (if_pos hncli).trans (h.read e o hpc).symm⟩
    · omega

/-- `popcli` closes one level of the nest. -/
lemma popcli (h : Fine ptable c holder k x) (hd : x.depth = x'.depth + 1) (hl : x'.locks = x.locks)
    (hf : x'.frames = x.frames) (hr : x'.running = x.running) (hpc : x.pc = .idle ∨ x.pc = .unlocked)
    (hpc' : x'.pc = .idle) :
    Fine ptable c holder k.popcli x' ∧ Moved c holder k x k.popcli x' holder := by
  have hn : k.ncli = (x'.depth + 1 : ℕ) := by rw [h.ncli, hd]
  rw [popcli_eq hn (h.off (by omega))]
  constructor
  · constructor
    · rfl
    · intro hlt
      have hne : ¬ x'.depth = 0 := by omega
      simp [hne]
    · rw [hl]
      exact h.holder
    · rw [hl]
      exact h.nodup
    · simp [hpc']
    · simp [hpc']
    · intro f hmem
      exact h.frames f (hf ▸ hmem)
    · intro hc
      rw [hr]
      exact Or.inl (h.runs (by rcases hpc with hpc | hpc <;> simp [hpc]) hc)
    · simp [hpc']
    · exact h.panic
  · constructor
    · rfl
    · exact fun _ _ _ => Iff.rfl
    · exact fun _ _ => ⟨by simp [hpc'], rfl⟩
    · rcases hpc with hpc | hpc <;> simp [hpc]
    · omega
    · intro _ hz
      simp [hz]

/-- `leave`, `restore` and the rest that changes neither the nest nor the flag. -/
lemma same (h : Fine ptable c holder k x) (hd : x'.depth = x.depth) (hl : x'.locks = x.locks)
    (hp : x'.pushes = x.pushes) (hf : x'.frames = x.frames) (i : Bool)
    (hread : ∀ e lk, x'.pc = .read e lk → k.flag = e)
    (hpc : x'.pc ≠ .leaving ∧ x'.pc ≠ .resume ∨ x'.pc = .leaving ∧ x'.running = false ∧ x.locks = [ptable] ∧
      x.pushes = 0 ∧ k.curr.isProc = true)
    (hr : k.curr.isProc = true → x'.running = true ∨ x'.pc = .leaving) :
    Fine ptable c holder { k with intena := i } x' := by
  constructor
  · rw [hd]
    exact h.ncli
  · rw [hd]
    exact h.off
  · rw [hl]
    exact h.holder
  · rw [hl]
    exact h.nodup
  · intro hor
    rw [hl, hp]
    rcases hpc with ⟨hleave, hresume⟩ | ⟨-, -, hpc⟩
    · exact absurd hor (by simp [hleave, hresume])
    · exact hpc
  · exact hread
  · intro f hmem
    exact h.frames f (hf ▸ hmem)
  · exact hr
  · intro he
    rcases hpc with ⟨hleave, -⟩ | ⟨-, hpc, -⟩
    · exact absurd he hleave
    · exact hpc
  · exact h.panic

/-- The reading of the flags in `pushcli`. -/
lemma readFlags (h : Fine ptable c holder k x) (hpc : x.pc = .idle) (o : Option Lock) :
    Fine ptable c holder k { x with pc := .read k.flag o } ∧
      Moved c holder k x k { x with pc := .read k.flag o } holder := by
  have hd : ({ x with pc := .read k.flag o } : Thread Lock).depth = x.depth := by
    simp [Thread.depth, Pc.extra, hpc]
  constructor
  · refine h.same hd rfl rfl rfl k.intena ?_ (Or.inl ⟨by simp, by simp⟩) ?_
    · intro e lk he
      injection he
    · exact fun hc => Or.inl (h.runs (by simp [hpc]) hc)
  · exact ⟨rfl, fun _ _ _ => Iff.rfl, fun _ _ => ⟨by simp, rfl⟩, by simp [hpc], by omega, by omega⟩

end Fine

end Threads

section Locks

variable {Cpu Proc Lock : Type} [DecidableEq Lock] {ptable lk : Lock} {c d : Cpu} {holder : Lock → Option Cpu}
  {k : CpuState Cpu Proc} {x : Thread Lock}

namespace Fine

/-- The lock a thread was spinning for. -/
lemma take (h : Fine ptable c holder k x) (hpc : x.pc = .spin lk) (hfree : holder lk = none) :
    Fine ptable c (Function.update holder lk (some c)) k { x with pc := .idle, locks := lk :: x.locks } ∧
      Moved c holder k x k { x with pc := .idle, locks := lk :: x.locks } (Function.update holder lk (some c)) := by
  have hnot : lk ∉ x.locks := by
    intro hmem
    have := (h.holder lk).mpr hmem
    simp [hfree] at this
  have hd : ({ x with pc := .idle, locks := lk :: x.locks } : Thread Lock).depth = x.depth := by
    simp only [Thread.depth, Pc.extra, hpc, List.length_cons]
    omega
  constructor
  · constructor
    · rw [hd]
      exact h.ncli
    · rw [hd]
      exact h.off
    · intro l
      by_cases hl : l = lk
      · simp [hl]
      · rw [Function.update_of_ne hl, h.holder l]
        simp [hl]
    · exact List.nodup_cons.mpr ⟨hnot, h.nodup⟩
    · simp
    · simp
    · exact h.frames
    · exact fun hc => Or.inl (h.runs (by simp [hpc]) hc)
    · simp
    · exact h.panic
  · constructor
    · rfl
    · intro l d hdc
      by_cases hl : l = lk
      · simp [hl, hfree, Ne.symm hdc]
      · rw [Function.update_of_ne hl]
    · exact fun _ _ => ⟨by simp, rfl⟩
    · simp [hpc]
    · omega
    · omega

/-- A lock the thread gives back. -/
lemma release (h : Fine ptable c holder k x) (hpc : x.pc = .idle) (hmem : lk ∈ x.locks) :
    Fine ptable c (Function.update holder lk none) k { x with pc := .unlocked, locks := x.locks.erase lk } ∧
      Moved c holder k x k { x with pc := .unlocked, locks := x.locks.erase lk } (Function.update holder lk none) := by
  have hpos : 0 < x.locks.length := List.length_pos_of_mem hmem
  have hd : ({ x with pc := .unlocked, locks := x.locks.erase lk } : Thread Lock).depth = x.depth := by
    simp only [Thread.depth, Pc.extra, hpc, List.length_erase_of_mem hmem]
    omega
  have hheld := (h.holder lk).mpr hmem
  constructor
  · constructor
    · rw [hd]
      exact h.ncli
    · rw [hd]
      exact h.off
    · intro l
      by_cases hl : l = lk
      · rw [hl, Function.update_self]
        simpa using h.nodup.not_mem_erase
      · rw [Function.update_of_ne hl, h.holder l]
        exact (List.mem_erase_of_ne hl).symm
    · exact h.nodup.erase lk
    · simp
    · simp
    · exact h.frames
    · exact fun hc => Or.inl (h.runs (by simp [hpc]) hc)
    · simp
    · exact h.panic
  · constructor
    · rfl
    · intro l d hdc
      by_cases hl : l = lk
      · simp [hl, hheld, Ne.symm hdc]
      · rw [Function.update_of_ne hl]
    · exact fun _ _ => ⟨by simp, rfl⟩
    · simp [hpc]
    · omega
    · omega

end Fine

variable [DecidableEq Cpu] {holder' : Lock → Option Cpu} {k' : CpuState Cpu Proc} {x' : Thread Lock} {op : Op Lock}

/-- Every step of a thread keeps what it and its CPU agree on. -/
theorem turn_spec (h : Fine ptable c holder k x) (ht : turn ptable c holder k x op = some (k', x', holder')) :
    Fine ptable c holder' k' x' ∧ Moved c holder k x k' x' holder' := by
  cases op with
  | flag b =>
    simp only [turn, Option.ite_none_right_eq_some, Option.some.injEq, Prod.mk.injEq] at ht
    obtain ⟨hb, rfl, rfl, rfl⟩ := ht
    exact h.flag hb b
  | trap =>
    simp only [turn, Option.ite_none_right_eq_some, Option.some.injEq, Prod.mk.injEq] at ht
    obtain ⟨hf, rfl, rfl, rfl⟩ := ht
    exact h.trap hf
  | iret =>
    simp only [turn, Option.ite_none_right_eq_some] at ht
    obtain ⟨hb, ht⟩ := ht
    cases hfr : x.frames with
    | nil => simp [hfr] at ht
    | cons pc frames =>
      simp only [hfr, Option.some.injEq, Prod.mk.injEq] at ht
      obtain ⟨rfl, rfl, rfl⟩ := ht
      exact h.iret hb hfr
  | pushcli =>
    simp only [turn, Option.ite_none_right_eq_some, Option.some.injEq, Prod.mk.injEq] at ht
    obtain ⟨hpc, rfl, rfl, rfl⟩ := ht
    exact h.readFlags hpc none
  | acquire lk =>
    simp only [turn, Option.ite_none_right_eq_some, Option.some.injEq, Prod.mk.injEq] at ht
    obtain ⟨hpc, rfl, rfl, rfl⟩ := ht
    exact h.readFlags hpc (some lk)
  | cli =>
    cases hpc : x.pc with
    | read e o =>
      cases o with
      | none =>
        simp only [turn, hpc, Option.some.injEq, Prod.mk.injEq] at ht
        obtain ⟨rfl, rfl, rfl⟩ := ht
        refine h.cli hpc h.panic ?_ rfl rfl rfl (Or.inl rfl)
        simp only [Thread.depth, Pc.extra, hpc]
        omega
      | some lk =>
        simp only [turn, hpc, Option.some.injEq, Prod.mk.injEq] at ht
        obtain ⟨rfl, rfl, rfl⟩ := ht
        have hd : ({ x with pc := .spin lk } : Thread Lock).depth = x.depth + 1 := by
          simp [Thread.depth, Pc.extra, hpc]
        split_ifs with hheld
        · exact h.cli hpc (Or.inr rfl) hd rfl rfl rfl (Or.inr ⟨lk, rfl⟩)
        · exact h.cli hpc h.panic hd rfl rfl rfl (Or.inr ⟨lk, rfl⟩)
    | _ => simp [turn, hpc] at ht
  | take =>
    cases hpc : x.pc with
    | spin lk =>
      simp only [turn, hpc, Option.ite_none_right_eq_some, Option.some.injEq, Prod.mk.injEq] at ht
      obtain ⟨hfree, rfl, rfl, rfl⟩ := ht
      exact h.take hpc hfree
    | _ => simp [turn, hpc] at ht
  | release lk =>
    simp only [turn, Option.ite_none_right_eq_some] at ht
    obtain ⟨⟨hpc, hmem⟩, ht⟩ := ht
    rw [if_pos ((h.holder lk).mpr hmem)] at ht
    simp only [Option.some.injEq, Prod.mk.injEq] at ht
    obtain ⟨rfl, rfl, rfl⟩ := ht
    exact h.release hpc hmem
  | popcli =>
    rw [turn] at ht
    split_ifs at ht with hpc hpush
    · simp only [Option.some.injEq, Prod.mk.injEq] at ht
      obtain ⟨rfl, rfl, rfl⟩ := ht
      refine h.popcli ?_ rfl rfl rfl (Or.inr hpc) rfl
      simp [Thread.depth, Pc.extra, hpc]
    · simp only [Option.some.injEq, Prod.mk.injEq] at ht
      obtain ⟨rfl, rfl, rfl⟩ := ht
      refine h.popcli ?_ rfl rfl rfl (Or.inl hpush.1) hpush.1
      simp only [Thread.depth]
      omega
  | leave =>
    simp only [turn, Option.ite_none_right_eq_some, Option.some.injEq, Prod.mk.injEq] at ht
    obtain ⟨⟨hproc, hpc, hl, hp⟩, rfl, rfl, rfl⟩ := ht
    have hd : ({ x with pc := .leaving, running := false } : Thread Lock).depth = x.depth := by
      simp [Thread.depth, Pc.extra, hpc]
    constructor
    · exact h.same hd rfl rfl rfl k.intena (by simp) (Or.inr ⟨rfl, rfl, hl, hp, hproc⟩) (fun _ => Or.inr rfl)
    · exact ⟨rfl, fun _ _ _ => Iff.rfl, fun _ _ => ⟨by simp, rfl⟩, by simp [hpc], by omega, by omega⟩
  | restore =>
    simp only [turn, Option.ite_none_right_eq_some, Option.some.injEq, Prod.mk.injEq] at ht
    obtain ⟨hpc, rfl, rfl, rfl⟩ := ht
    have hd : ({ x with pc := .idle } : Thread Lock).depth = x.depth := by
      simp [Thread.depth, Pc.extra, hpc]
    constructor
    · refine h.same hd rfl rfl rfl x.intena (by simp) (Or.inl ⟨by simp, by simp⟩) ?_
      exact fun hc => Or.inl (h.runs (by simp [hpc]) hc)
    · exact ⟨rfl, fun _ _ _ => Iff.rfl, fun _ hne => absurd hpc hne, fun _ => ⟨by simp, rfl, hd⟩, by omega, by omega⟩

end Locks

end Cli

end Os132

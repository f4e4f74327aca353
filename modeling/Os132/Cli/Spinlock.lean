import Mathlib.Data.UInt
import Os132.Lib.Run
import Os132.Lib.Tso

/-!
# Spin locks (spinlock.c)

`acquire`, `release` and `holding` one memory access at a time, on processors whose stores wait in buffers. What
lies between `pushcli` and `popcli` is not interrupted, so each CPU is in at most one of them. `holders` is the
lock that the rest of the kernel relies on: a CPU has it from the exchange of `acquire` that finds 0 to the
exchange of `release`. The places for debugging, `name` and `pcs`, are left out.
-/

namespace Os132

namespace Spinlock

open Tso

/-- The fields of the locks, and the data that the locks protect. -/
inductive Addr (Lock Datum : Type) where
  | locked (lk : Lock)
  | cpu (lk : Lock)
  | data (d : Datum)
  deriving DecidableEq

/-- The addresses of the elements of `cpus`. -/
structure Cpus (Cpu : Type) where
  addr : Cpu → UInt32
  injective : Function.Injective addr
  ne_zero : ∀ c, addr c ≠ 0

/-- The calls of `holding`. -/
inductive Test where
  | acquire
  | release
  | sched
  deriving DecidableEq

/-- Where a CPU is: before the two reads of `holding`, before the exchange of `acquire` and before it sets
`lk->cpu`, before `release` clears `lk->cpu` and before its exchange. -/
inductive Place (Lock : Type) where
  | out
  | testLocked (t : Test) (lk : Lock)
  | testCpu (t : Test) (lk : Lock)
  | xchg (lk : Lock)
  | record (lk : Lock)
  | clear (lk : Lock)
  | unlock (lk : Lock)
  | panic
  deriving DecidableEq

structure State (Cpu Lock Datum : Type) where
  mem : Memory Cpu (Addr Lock Datum) UInt32
  place : Cpu → Place Lock

inductive Op (Lock Datum : Type) where
  | call (t : Test) (lk : Lock)
  | go
  | flush
  | load (d : Datum)
  | store (d : Datum) (v : UInt32)

variable {Cpu Lock Datum : Type} [DecidableEq Cpu] [DecidableEq Lock] [DecidableEq Datum]

/-- What follows when `holding` returns. -/
def Test.answer (lk : Lock) : Test → Bool → Place Lock
  | .acquire, true => .panic
  | .acquire, false => .xchg lk
  | .release, true => .clear lk
  | .release, false => .panic
  | .sched, true => .out
  | .sched, false => .panic

namespace State

def goto (s : State Cpu Lock Datum) (c : Cpu) (p : Place Lock) : State Cpu Lock Datum :=
  { s with place := Function.update s.place c p }

/-- The next access of a CPU that is in one of the functions. -/
def go (cpus : Cpus Cpu) (c : Cpu) (s : State Cpu Lock Datum) : Option (State Cpu Lock Datum) :=
  match s.place c with
  | .out => none
  | .testLocked t lk =>
    some (s.goto c (if s.mem.view c (.locked lk) = 0 then t.answer lk false else .testCpu t lk))
  | .testCpu t lk => some (s.goto c (t.answer lk (s.mem.view c (.cpu lk) = cpus.addr c)))
  | .xchg lk => (s.mem.xchg c (.locked lk) 1).map fun r =>
      { s with mem := r.2 }.goto c (if r.1 = 0 then .record lk else .xchg lk)
  | .record lk => some ({ s with mem := s.mem.write c (.cpu lk) (cpus.addr c) }.goto c .out)
  | .clear lk => some ({ s with mem := s.mem.write c (.cpu lk) 0 }.goto c (.unlock lk))
  | .unlock lk => (s.mem.xchg c (.locked lk) 0).map fun r => { s with mem := r.2 }.goto c .out
  | .panic => none

end State

def step (cpus : Cpus Cpu) : Cpu × Op Lock Datum → State Cpu Lock Datum → Option (State Cpu Lock Datum)
  | (c, .go), s => s.go cpus c
  | (c, .flush), s => (s.mem.flush c).map fun m => { s with mem := m }
  | (c, .call t lk), s => if s.place c = .out then some (s.goto c (.testLocked t lk)) else none
  | (c, .load _), s => if s.place c = .out then some s else none
  | (c, .store d v), s => if s.place c = .out then some { s with mem := s.mem.write c (.data d) v } else none

/-- `initlock` has run for every lock. -/
def Start (s : State Cpu Lock Datum) : Prop :=
  (∀ c, s.place c = .out ∧ s.mem.buf c = []) ∧ ∀ lk, s.mem.mem (.locked lk) = 0 ∧ s.mem.mem (.cpu lk) = 0

/-- What a step makes of the holders of the locks. -/
def after (s : State Cpu Lock Datum) : Cpu × Op Lock Datum → (Lock → Option Cpu) → Lock → Option Cpu
  | (c, .go), h =>
    match s.place c with
    | .xchg lk => if s.mem.mem (.locked lk) = 0 then Function.update h lk (some c) else h
    | .unlock lk => Function.update h lk none
    | _ => h
  | _, h => h

/-- What a step makes of the data when stores take effect at once. -/
def stored : Cpu × Op Lock Datum → (Datum → UInt32) → Datum → UInt32
  | (_, .store d v), f => Function.update f d v
  | _, f => f

variable {cpus : Cpus Cpu} {n : ℕ}

abbrev LockRun (Lock Datum : Type) [DecidableEq Lock] [DecidableEq Datum] (cpus : Cpus Cpu) (n : ℕ) :=
  Lts.Run (fun s : State Cpu Lock Datum => Start s) (step cpus) n

def holders (r : LockRun Lock Datum cpus n) : ℕ → Lock → Option Cpu
  | 0 => fun _ => none
  | k + 1 => after (r.state k) (r.label k) (holders r k)

def values (r : LockRun Lock Datum cpus n) : ℕ → Datum → UInt32
  | 0 => fun d => (r.state 0).mem.mem (.data d)
  | k + 1 => stored (r.label k) (values r k)

/-- CPUs store to data only while they hold its lock. -/
def Guarded (guard : Datum → Lock) (r : LockRun Lock Datum cpus n) : Prop :=
  ∀ k, k < n → ∀ c d v, r.label k = (c, .store d v) → holders r k (guard d) = some c

/-! ### The invariant -/

variable {guard : Datum → Lock} {s s' : State Cpu Lock Datum} {h h' : Lock → Option Cpu} {f : Datum → UInt32} {c : Cpu}
  {lk : Lock} {p : Place Lock} {v : UInt32}

/-- The owners of the addresses. -/
def own (guard : Datum → Lock) (h : Lock → Option Cpu) : Addr Lock Datum → Option Cpu
  | .locked _ => none
  | .cpu lk => h lk
  | .data d => h (guard d)

/-- `lk->cpu` as the holder sees it. -/
def named (cpus : Cpus Cpu) (s : State Cpu Lock Datum) (h : Lock → Option Cpu) (lk : Lock) : UInt32 :=
  match h lk with
  | none => 0
  | some c => if s.place c = .record lk ∨ s.place c = .unlock lk then 0 else cpus.addr c

structure Inv (cpus : Cpus Cpu) (guard : Datum → Lock) (s : State Cpu Lock Datum) (h : Lock → Option Cpu)
    (f : Datum → UInt32) : Prop where
  owned : Owned (own guard h) s.mem
  locked : ∀ lk, s.mem.mem (.locked lk) = 0 ↔ h lk = none
  /-- In memory `lk->cpu` may be old, but not so old that it names a CPU that has given up the lock. -/
  stale : ∀ lk c, s.mem.mem (.cpu lk) = cpus.addr c → h lk = some c
  waiting : ∀ c lk v, (.cpu lk, v) ∈ s.mem.buf c → v = 0 ∨ v = cpus.addr c
  name : ∀ lk, truth (own guard h) s.mem (.cpu lk) = named cpus s h lk
  mine : ∀ c lk, s.place c = .record lk ∨ s.place c = .clear lk ∨ s.place c = .unlock lk → h lk = some c
  notMine : ∀ c lk, s.place c = .xchg lk → h lk ≠ some c
  data : ∀ d, truth (own guard h) s.mem (.data d) = f d

omit [DecidableEq Cpu] in
lemma inv_start (hs : Start s) : Inv cpus guard s (fun _ => none) fun d => s.mem.mem (.data d) := by
  obtain ⟨hc, hl⟩ := hs
  refine ⟨?_, ?_, ?_, ?_, ?_, ?_, ?_, ?_⟩
  · intro c a v hv
    simp [(hc c).2] at hv
  · intro lk
    simp [(hl lk).1]
  · intro lk c he
    exact absurd (he.symm.trans (hl lk).2) (cpus.ne_zero c)
  · intro c lk v hv
    simp [(hc c).2] at hv
  · intro lk
    exact (truth_of_none rfl).trans (hl lk).2
  · intro c lk h
    simp [(hc c).1] at h
  · intro c lk h
    simp [(hc c).1] at h
  · intro d
    exact truth_of_none rfl

/-- A CPU goes on without a store. -/
lemma Inv.goto (hi : Inv cpus guard s h f) (hq : ∀ lk, s.place c ≠ .record lk ∧ s.place c ≠ .unlock lk)
    (hp : ∀ lk, p ≠ .record lk ∧ p ≠ .unlock lk) (hc : ∀ lk, p = .clear lk → h lk = some c)
    (hx : ∀ lk, p = .xchg lk → h lk ≠ some c) : Inv cpus guard (s.goto c p) h f := by
  refine { hi with name := fun lk => (hi.name lk).trans ?_, mine := fun d lk hd => ?_, notMine := fun d lk hd => ?_ }
  · unfold named
    cases h lk with
    | none => rfl
    | some d =>
      by_cases hd : d = c
      · subst hd
        simp [State.goto, hq lk, hp lk]
      · simp [State.goto, Function.update_of_ne hd]
  · by_cases hdc : d = c
    · subst hdc
      simp only [State.goto, Function.update_self] at hd
      rcases hd with hd | hd | hd
      · exact absurd hd (hp lk).1
      · exact hc lk hd
      · exact absurd hd (hp lk).2
    · exact hi.mine d lk (by simpa [State.goto, Function.update_of_ne hdc] using hd)
  · by_cases hdc : d = c
    · subst hdc
      exact hx lk (by simpa [State.goto] using hd)
    · exact hi.notMine d lk (by simpa [State.goto, Function.update_of_ne hdc] using hd)

/-- The holder stores to `lk->cpu`. -/
lemma Inv.setCpu (hi : Inv cpus guard s h f)
    (hp : s.place c = .record lk ∧ p = .out ∧ v = cpus.addr c ∨ s.place c = .clear lk ∧ p = .unlock lk ∧ v = 0) :
    Inv cpus guard ({ s with mem := s.mem.write c (.cpu lk) v }.goto c p) h f := by
  have hl : h lk = some c := hi.mine c lk (by rcases hp with hp | hp <;> simp [hp.1])
  have hown : own guard h (.cpu lk) = some c := hl
  refine ⟨hi.owned.write hown, hi.locked, hi.stale, ?_, ?_, ?_, ?_, ?_⟩
  · intro d x w hw
    rcases mem_write hw with hw | ⟨rfl, -, rfl⟩
    · exact hi.waiting d x w hw
    · rcases hp with hp | hp <;> simp [hp.2.2]
  · intro x
    change truth (own guard h) (s.mem.write c (.cpu lk) v) (.cpu x) = _
    rw [truth_write hown]
    by_cases hx : x = lk
    · subst hx
      rw [Function.update_self, named, hl]
      rcases hp with ⟨-, rfl, rfl⟩ | ⟨-, rfl, rfl⟩ <;> simp [State.goto]
    · rw [Function.update_of_ne (by simpa using hx), hi.name x]
      unfold named
      cases h x with
      | none => rfl
      | some d =>
        by_cases hd : d = c
        · subst hd
          rcases hp with ⟨hq, rfl, -⟩ | ⟨hq, rfl, -⟩ <;> simp [State.goto, hq, Ne.symm hx]
        · simp [State.goto, Function.update_of_ne hd]
  · intro d x hd
    by_cases hdc : d = c
    · subst hdc
      rcases hp with ⟨-, rfl, -⟩ | ⟨-, rfl, -⟩
      · simp [State.goto] at hd
      · obtain rfl : lk = x := by simpa [State.goto] using hd
        exact hl
    · exact hi.mine d x (by simpa [State.goto, Function.update_of_ne hdc] using hd)
  · intro d x hd
    by_cases hdc : d = c
    · subst hdc
      rcases hp with ⟨-, rfl, -⟩ | ⟨-, rfl, -⟩ <;> simp [State.goto] at hd
    · exact hi.notMine d x (by simpa [State.goto, Function.update_of_ne hdc] using hd)
  · intro d
    change truth (own guard h) (s.mem.write c (.cpu lk) v) (.data d) = _
    rw [truth_write hown, Function.update_of_ne (by simp)]
    exact hi.data d

lemma Inv.store {d : Datum} (hi : Inv cpus guard s h f) (hd : h (guard d) = some c) :
    Inv cpus guard { s with mem := s.mem.write c (.data d) v } h (Function.update f d v) := by
  have hown : own guard h (.data d) = some c := hd
  refine ⟨hi.owned.write hown, hi.locked, hi.stale, ?_, ?_, hi.mine, hi.notMine, ?_⟩
  · intro e x w hw
    rcases mem_write hw with hw | ⟨-, he, -⟩
    · exact hi.waiting e x w hw
    · cases he
  · intro x
    change truth (own guard h) (s.mem.write c (.data d) v) (.cpu x) = _
    rw [truth_write hown, Function.update_of_ne (by simp)]
    exact hi.name x
  · intro e
    change truth (own guard h) (s.mem.write c (.data d) v) (.data e) = _
    rw [truth_write hown]
    by_cases he : e = d
    · rw [he, Function.update_self, Function.update_self]
    · rw [Function.update_of_ne (by simpa using he), Function.update_of_ne he]
      exact hi.data e

/-- A store that reaches memory. -/
lemma Inv.flush {m : Memory Cpu (Addr Lock Datum) UInt32} (hi : Inv cpus guard s h f) (hm : s.mem.flush c = some m) :
    Inv cpus guard { s with mem := m } h f := by
  have htruth := truth_flush hi.owned hm
  refine ⟨hi.owned.flush hm, ?_, ?_, ?_, ?_, hi.mine, hi.notMine, ?_⟩
  · intro lk
    rw [← hi.locked lk]
    have hl := congrFun htruth (.locked lk)
    rw [truth_of_none rfl, truth_of_none rfl] at hl
    exact ⟨fun h0 => hl.symm.trans h0, fun h0 => hl.trans h0⟩
  · intro lk d he
    obtain ⟨a, w, l, hl, rfl⟩ := flush_cases hm
    have hmem : (a, w) ∈ s.mem.buf c := by simp [hl]
    by_cases ha : Addr.cpu lk = a
    · subst ha
      have hw : w = cpus.addr d := by simpa using he
      rcases hi.waiting c lk w hmem with h0 | hc
      · exact absurd (hw.symm.trans h0) (cpus.ne_zero d)
      · rw [cpus.injective (hw.symm.trans hc)]
        exact hi.owned c _ w hmem
    · exact hi.stale lk d (by simpa [Function.update_of_ne ha] using he)
  · exact fun d lk w hw => hi.waiting d lk w (mem_flush hm hw)
  · exact fun lk => (congrFun htruth _).trans (hi.name lk)
  · exact fun d => (congrFun htruth _).trans (hi.data d)

/-- An exchange on `lk->locked`, by which the lock may pass to or from the CPU. -/
lemma Inv.exchange (hi : Inv cpus guard s h f) (hb : s.mem.buf c = []) (hne : ∀ x, x ≠ lk → h' x = h x)
    (hl : h lk ≠ h' lk → (h lk = some c ∨ h lk = none) ∧ (h' lk = some c ∨ h' lk = none)) (hv : v = 0 ↔ h' lk = none)
    (hstale : ∀ d, s.mem.mem (.cpu lk) = cpus.addr d → h' lk = some d)
    (hname : ∀ x, named cpus s h x = named cpus (s.goto c p) h' x)
    (hmine : ∀ d x, (s.goto c p).place d = .record x ∨ (s.goto c p).place d = .clear x ∨ (s.goto c p).place d = .unlock x →
      h' x = some d)
    (hnot : ∀ d x, (s.goto c p).place d = .xchg x → h' x ≠ some d) :
    Inv cpus guard ({ s with mem := { s.mem with mem := Function.update s.mem.mem (.locked lk) v } }.goto c p) h' f := by
  have hpass : Passes c (own guard h) (own guard h') := by
    have hlock : ∀ x, h x ≠ h' x → (h x = some c ∨ h x = none) ∧ (h' x = some c ∨ h' x = none) := by
      intro x hx
      by_cases hxl : x = lk
      · exact hxl ▸ hl (hxl ▸ hx)
      · exact absurd (hne x hxl).symm hx
    intro a ha
    cases a with
    | locked x => exact absurd rfl ha
    | cpu x => exact hlock x ha
    | data d => exact hlock (guard d) ha
  have htruth : ∀ a, a ≠ .locked lk → truth (own guard h') { s.mem with mem := Function.update s.mem.mem (.locked lk) v } a =
      truth (own guard h) s.mem a := by
    intro a ha
    rw [truth_xchg rfl, Function.update_of_ne ha, truth_pass hb hpass]
  refine ⟨hi.owned.pass hb hpass, ?_, ?_, hi.waiting, ?_, hmine, hnot, ?_⟩
  · intro x
    by_cases hx : x = lk
    · subst hx
      simpa [State.goto] using hv
    · rw [hne x hx, ← hi.locked x]
      simp [State.goto, Function.update_of_ne (show Addr.locked x ≠ .locked lk by simpa using hx)]
  · intro x d he
    have he' : s.mem.mem (.cpu x) = cpus.addr d := he
    by_cases hx : x = lk
    · subst hx
      exact hstale d he'
    · exact (hne x hx).trans (hi.stale x d he')
  · exact fun x => (htruth _ (by simp)).trans ((hi.name x).trans (hname x))
  · exact fun d => (htruth _ (by simp)).trans (hi.data d)

/-- A CPU that does not hold a lock does not see its own name in it, and one that holds it does. -/
lemma Inv.named_iff (hi : Inv cpus guard s h f) (hp : s.place c ≠ .record lk ∧ s.place c ≠ .unlock lk) :
    s.mem.view c (.cpu lk) = cpus.addr c ↔ h lk = some c := by
  constructor
  · intro hview
    by_contra hl
    rw [view_of_not_owner hi.owned (show own guard h (.cpu lk) ≠ some c from hl)] at hview
    exact hl (hi.stale lk c hview)
  · intro hl
    have htruth := hi.name lk
    rw [truth_of_owner (show own guard h (.cpu lk) = some c from hl), named, hl] at htruth
    simpa [hp] using htruth

omit [DecidableEq Cpu] in
lemma Inv.not_mine_of_zero (hi : Inv cpus guard s h f) (h0 : s.mem.view c (.locked lk) = 0) : h lk ≠ some c := by
  rw [view_of_not_owner hi.owned (a := .locked lk) (by simp [own]), hi.locked lk] at h0
  simp [h0]

/-- `holding` returns to a place that suits its answer. -/
lemma Inv.answer {t : Test} {b : Bool} (hi : Inv cpus guard s h f) (hq : ∀ x, s.place c ≠ .record x ∧ s.place c ≠ .unlock x)
    (hb : b = true ↔ h lk = some c) : Inv cpus guard (s.goto c (t.answer lk b)) h f := by
  refine hi.goto hq ?_ ?_ ?_
  · intro x
    cases t <;> cases b <;> simp [Test.answer]
  · intro x hx
    cases t <;> cases b <;> simp [Test.answer] at hx
    exact hx ▸ hb.1 rfl
  · intro x hx
    cases t <;> cases b <;> simp [Test.answer] at hx
    exact fun hl => by simpa using hb.2 (hx ▸ hl)

omit [DecidableEq Datum] in
lemma named_of_ne {x : Lock} (hx : x ≠ lk) (hh : h' x = h x) (hc : s.place c = .xchg lk ∨ s.place c = .unlock lk)
    (hp : p = .record lk ∨ p = .xchg lk ∨ p = .out) : named cpus s h x = named cpus (s.goto c p) h' x := by
  unfold named
  rw [hh]
  cases h x with
  | none => rfl
  | some d =>
    by_cases hd : d = c
    · subst hd
      rcases hc with hc | hc <;> rcases hp with rfl | rfl | rfl <;> simp [State.goto, hc, Ne.symm hx]
    · simp [State.goto, Function.update_of_ne hd]

/-- The exchange of `acquire` that finds 0 takes the lock. -/
lemma Inv.take (hi : Inv cpus guard s h f) (hp : s.place c = .xchg lk) (hb : s.mem.buf c = []) (h0 : s.mem.mem (.locked lk) = 0) :
    Inv cpus guard ({ s with mem := { s.mem with mem := Function.update s.mem.mem (.locked lk) 1 } }.goto c (.record lk))
      (Function.update h lk (some c)) f := by
  have hl : h lk = none := (hi.locked lk).1 h0
  refine hi.exchange hb (fun x hx => Function.update_of_ne hx _ _) (fun _ => by simp [hl]) (by simp) ?_ ?_ ?_ ?_
  · intro d hd
    simp [hi.stale lk d hd] at hl
  · intro x
    by_cases hx : x = lk
    · subst hx
      simp [named, hl, State.goto]
    · exact named_of_ne hx (Function.update_of_ne hx _ _) (.inl hp) (.inl rfl)
  · intro d x hd
    by_cases hdc : d = c
    · subst hdc
      obtain rfl : lk = x := by simpa [State.goto] using hd
      exact Function.update_self _ _ _
    · have hm := hi.mine d x (by simpa [State.goto, Function.update_of_ne hdc] using hd)
      rw [Function.update_of_ne (fun hx => by simp [← hx, hm] at hl)]
      exact hm
  · intro d x hd
    by_cases hdc : d = c
    · subst hdc
      simp [State.goto] at hd
    · have hm := hi.notMine d x (by simpa [State.goto, Function.update_of_ne hdc] using hd)
      by_cases hx : x = lk
      · rw [hx, Function.update_self]
        simpa using Ne.symm hdc
      · rwa [Function.update_of_ne hx]

/-- The exchange of `acquire` that finds 1 leaves everything as it is. -/
lemma Inv.busy (hi : Inv cpus guard s h f) (hp : s.place c = .xchg lk) (hb : s.mem.buf c = []) (h0 : s.mem.mem (.locked lk) ≠ 0) :
    Inv cpus guard ({ s with mem := { s.mem with mem := Function.update s.mem.mem (.locked lk) 1 } }.goto c (.xchg lk)) h f := by
  have hl : h lk ≠ none := fun hl => h0 ((hi.locked lk).2 hl)
  have hsame : (s.goto c (.xchg lk)).place = s.place := Function.update_eq_self_iff.2 hp.symm
  refine hi.exchange hb (fun _ _ => rfl) (fun hne => absurd rfl hne) (by simp [hl]) (hi.stale lk) ?_ ?_ ?_
  · intro x
    rw [named, named, hsame]
  · intro d x hd
    exact hi.mine d x (hsame ▸ hd)
  · intro d x hd
    exact hi.notMine d x (hsame ▸ hd)

/-- The exchange of `release` gives the lock up. -/
lemma Inv.give (hi : Inv cpus guard s h f) (hp : s.place c = .unlock lk) (hb : s.mem.buf c = []) :
    Inv cpus guard ({ s with mem := { s.mem with mem := Function.update s.mem.mem (.locked lk) 0 } }.goto c .out)
      (Function.update h lk none) f := by
  have hl : h lk = some c := hi.mine c lk (.inr (.inr hp))
  -- the buffer is empty, so that `lk->cpu = 0` has reached memory
  have hzero : s.mem.mem (.cpu lk) = 0 := by
    have htruth := hi.name lk
    rw [truth_of_owner (show own guard h (.cpu lk) = some c from hl), view_of_drained hb, named, hl] at htruth
    simpa [hp] using htruth
  refine hi.exchange hb (fun x hx => Function.update_of_ne hx _ _) (fun _ => by simp [hl]) (by simp) ?_ ?_ ?_ ?_
  · intro d hd
    exact absurd (hd.symm.trans hzero) (cpus.ne_zero d)
  · intro x
    by_cases hx : x = lk
    · subst hx
      simp [named, hl, hp]
    · exact named_of_ne hx (Function.update_of_ne hx _ _) (.inr hp) (.inr (.inr rfl))
  · intro d x hd
    by_cases hdc : d = c
    · subst hdc
      simp [State.goto] at hd
    · have hm := hi.mine d x (by simpa [State.goto, Function.update_of_ne hdc] using hd)
      rw [Function.update_of_ne (fun hx => hdc (by simpa [hx, hl] using hm.symm))]
      exact hm
  · intro d x hd
    by_cases hdc : d = c
    · subst hdc
      simp [State.goto] at hd
    · have hm := hi.notMine d x (by simpa [State.goto, Function.update_of_ne hdc] using hd)
      by_cases hx : x = lk
      · simp [hx]
      · rwa [Function.update_of_ne hx]

lemma Inv.go (hi : Inv cpus guard s h f) (hs : s.go cpus c = some s') : Inv cpus guard s' (after s (c, Op.go) h) f := by
  unfold State.go at hs
  cases hp : s.place c with
  | out => simp [hp] at hs
  | panic => simp [hp] at hs
  | testLocked t lk =>
    have hq : ∀ x, s.place c ≠ .record x ∧ s.place c ≠ .unlock x := by simp [hp]
    have hafter : after s (c, Op.go) h = h := by simp [after, hp]
    simp only [hp, Option.some.injEq] at hs
    rw [hafter, ← hs]
    split_ifs with h0
    · exact hi.answer hq (by simpa using hi.not_mine_of_zero h0)
    · exact hi.goto hq (by simp) (by simp) (by simp)
  | testCpu t lk =>
    have hq : ∀ x, s.place c ≠ .record x ∧ s.place c ≠ .unlock x := by simp [hp]
    have hafter : after s (c, Op.go) h = h := by simp [after, hp]
    simp only [hp, Option.some.injEq] at hs
    rw [hafter, ← hs]
    exact hi.answer hq (by simpa using hi.named_iff (hq lk))
  | xchg lk =>
    simp only [hp, Option.map_eq_some_iff] at hs
    obtain ⟨⟨w, m⟩, hx, rfl⟩ := hs
    obtain ⟨hb, rfl, rfl⟩ := xchg_cases hx
    simp only [after, hp]
    split_ifs with h0
    · exact hi.take hp hb h0
    · exact hi.busy hp hb h0
  | record lk =>
    have hafter : after s (c, Op.go) h = h := by simp [after, hp]
    simp only [hp, Option.some.injEq] at hs
    rw [hafter, ← hs]
    exact hi.setCpu (.inl ⟨hp, rfl, rfl⟩)
  | clear lk =>
    have hafter : after s (c, Op.go) h = h := by simp [after, hp]
    simp only [hp, Option.some.injEq] at hs
    rw [hafter, ← hs]
    exact hi.setCpu (.inr ⟨hp, rfl, rfl⟩)
  | unlock lk =>
    simp only [hp, Option.map_eq_some_iff] at hs
    obtain ⟨⟨w, m⟩, hx, rfl⟩ := hs
    obtain ⟨hb, rfl, rfl⟩ := xchg_cases hx
    have hafter : after s (c, Op.go) h = Function.update h lk none := by simp [after, hp]
    rw [hafter]
    exact hi.give hp hb

lemma Inv.step {l : Cpu × Op Lock Datum} (hi : Inv cpus guard s h f)
    (hg : ∀ c d v, l = (c, .store d v) → h (guard d) = some c) (hs : step cpus l s = some s') :
    Inv cpus guard s' (after s l h) (stored l f) := by
  obtain ⟨c, op⟩ := l
  cases op with
  | go => exact hi.go hs
  | flush =>
    simp only [Spinlock.step, Option.map_eq_some_iff] at hs
    obtain ⟨m, hm, rfl⟩ := hs
    exact hi.flush hm
  | call t lk =>
    simp only [Spinlock.step] at hs
    split_ifs at hs with hp
    obtain rfl := Option.some.inj hs
    exact hi.goto (by simp [hp]) (by simp) (by simp) (by simp)
  | load d =>
    simp only [Spinlock.step] at hs
    split_ifs at hs
    obtain rfl := Option.some.inj hs
    exact hi
  | store d v =>
    simp only [Spinlock.step] at hs
    split_ifs at hs
    obtain rfl := Option.some.inj hs
    exact hi.store (hg c d v rfl)

lemma inv_run (r : LockRun Lock Datum cpus n) (hg : Guarded guard r) :
    ∀ k, k ≤ n → Inv cpus guard (r.state k) (holders r k) (values r k) := by
  intro k hk
  induction k with
  | zero => exact inv_start r.starts
  | succ k ih => exact (ih (by omega)).step (hg k (by omega)) (r.steps k (by omega))

/-- What the locks do at time `k` of a run. -/
structure Exact (guard : Datum → Lock) (r : LockRun Lock Datum cpus n)
    (k : ℕ) : Prop where
  /-- `holding` answers whether the CPU has the lock, whatever the others do between its two reads. -/
  first_read : ∀ c t lk, (r.state k).place c = .testLocked t lk → (r.state k).mem.view c (.locked lk) = 0 → holders r k lk ≠ some c
  second_read : ∀ c t lk, (r.state k).place c = .testCpu t lk →
    ((r.state k).mem.view c (.cpu lk) = cpus.addr c ↔ holders r k lk = some c)
  /-- The exchange of `acquire` succeeds exactly if no CPU has the lock, and no CPU waits for itself. -/
  exchange : ∀ c lk, (r.state k).place c = .xchg lk →
    ((r.state k).mem.mem (.locked lk) = 0 ↔ holders r k lk = none) ∧ holders r k lk ≠ some c
  /-- A lock is given up by the CPU that has it. -/
  gives : ∀ c lk, (r.state k).place c = .unlock lk → holders r k lk = some c
  /-- The holder reads what was stored last, by whichever CPU. -/
  reads : ∀ c d, holders r k (guard d) = some c → (r.state k).mem.view c (.data d) = values r k d

/-- **The spin locks exclude on processors with store buffers**: in every run in which CPUs store to data only under its
lock, every interleaving of the accesses of `acquire`, `release` and `holding` with the stores that reach memory. -/
theorem spinlock_exact (r : LockRun Lock Datum cpus n)
    (hg : Guarded guard r) : ∀ k, k ≤ n → Exact guard r k := by
  intro k hk
  have hi := inv_run r hg k hk
  refine ⟨fun c t lk _ h0 => hi.not_mine_of_zero h0, fun c t lk hp => hi.named_iff (by simp [hp]),
    fun c lk hp => ⟨hi.locked lk, hi.notMine c lk hp⟩, fun c lk hp => hi.mine c lk (.inr (.inr hp)), fun c d hd => ?_⟩
  rw [← hi.data d]
  exact (truth_of_owner (show own guard (holders r k) (.data d) = some c from hd)).symm

/-! Two CPUs want a lock; the first stores under it, and the second finds what it stored. -/

def twoCpus : Cpus Bool where
  addr c := if c then 0x80112374 else 0x801122c0
  injective := by decide
  ne_zero := by decide

instance : Inhabited (Bool × Op Unit Unit) := ⟨(false, .go)⟩

def handover : List (Bool × Op Unit Unit) :=
  [(false, .call .acquire ()), (false, .go), (true, .call .acquire ()), (true, .go), (false, .go), (true, .go), (false, .go),
    (false, .store () 7), (false, .call .release ()), (false, .go), (false, .go), (false, .go), (false, .flush),
    (false, .flush), (false, .flush), (false, .go), (true, .go), (true, .go), (true, .load ())]

/-- The holder of the lock at each time. -/
def holderAt (k : ℕ) : Option Bool := if k < 5 then none else if k < 16 then some false else if k < 17 then none else some true

theorem spinlock_exact_handover : ∃ r : LockRun Unit Unit twoCpus handover.length, Guarded (fun _ => ()) r ∧
    Exact (fun _ => ()) r handover.length ∧ holders r handover.length () = some true ∧
    values r handover.length () = 7 := by
  let mem : Memory Bool (Addr Unit Unit) UInt32 := ⟨fun _ => 0, fun _ => []⟩
  have hstart : Start (⟨mem, fun _ => .out⟩ : State Bool Unit Unit) := ⟨fun _ => ⟨rfl, rfl⟩, fun _ => ⟨rfl, rfl⟩⟩
  obtain ⟨r, hq, hp⟩ := Lts.exists_run_of_check (step twoCpus) handover
    (fun k s l => decide (after s l (fun _ => holderAt k) () = holderAt (k + 1)) &&
      match l with
      | (c, .store _ _) => decide (holderAt k = some c)
      | _ => true)
    (fun s => decide (s.mem.view true (.data ()) = 7)) hstart (by decide +kernel)
  have hholders : ∀ k, k ≤ handover.length → holders r k = fun _ => holderAt k := by
    intro k hk
    induction k with
    | zero => rfl
    | succ k ih =>
      have hstep := (Bool.and_eq_true _ _ ▸ hq k (by omega)).1
      funext lk
      rw [holders, ih (by omega)]
      exact of_decide_eq_true hstep
  have hg : Guarded (fun _ => ()) r := by
    intro k hk c d v hl
    have hstore := (Bool.and_eq_true _ _ ▸ hq k hk).2
    rw [hl] at hstore
    rw [hholders k (by omega)]
    exact of_decide_eq_true hstore
  have hexact := spinlock_exact r hg handover.length le_rfl
  have hlast : holders r handover.length () = some true := by
    rw [hholders _ le_rfl]
    rfl
  exact ⟨r, hg, hexact, hlast, (hexact.reads true () hlast).symm.trans (of_decide_eq_true hp)⟩

end Spinlock

end Os132

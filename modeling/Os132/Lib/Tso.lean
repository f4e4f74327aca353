import Mathlib.Logic.Function.Basic
import Mathlib.Tactic.Common

/-!
# Memory with store buffers

Every processor puts its stores in a buffer of its own, from which they reach memory later and in order; it sees
its own stores at once, the others see them in memory only. A locked exchange waits for the buffer to drain.
`Owned` is the discipline that makes the buffers invisible: each address has at most one owner at a time, and
only the owner has stores to it under way. `truth` is then the memory that the owners see, and ownership may
change hands when the buffer of the one that gives or takes it is empty.
-/

namespace Tso

variable {Cpu Addr Val : Type}

structure Memory (Cpu Addr Val : Type) where
  mem : Addr → Val
  /-- The stores under way, the oldest first. -/
  buf : Cpu → List (Addr × Val)

variable [DecidableEq Addr]

/-- Memory after the stores of a buffer. -/
def pending : List (Addr × Val) → (Addr → Val) → Addr → Val
  | [], m => m
  | (a, v) :: l, m => pending l (Function.update m a v)

namespace Memory

/-- What a processor reads. -/
def view (s : Memory Cpu Addr Val) (c : Cpu) : Addr → Val := pending (s.buf c) s.mem

def write [DecidableEq Cpu] (s : Memory Cpu Addr Val) (c : Cpu) (a : Addr) (v : Val) : Memory Cpu Addr Val :=
  { s with buf := Function.update s.buf c (s.buf c ++ [(a, v)]) }

/-- The oldest store reaches memory. -/
def flush [DecidableEq Cpu] (s : Memory Cpu Addr Val) (c : Cpu) : Option (Memory Cpu Addr Val) :=
  match s.buf c with
  | [] => none
  | (a, v) :: l => some ⟨Function.update s.mem a v, Function.update s.buf c l⟩

/-- The old value and memory after a locked exchange. -/
def xchg (s : Memory Cpu Addr Val) (c : Cpu) (a : Addr) (v : Val) : Option (Val × Memory Cpu Addr Val) :=
  if (s.buf c).isEmpty then some (s.mem a, { s with mem := Function.update s.mem a v }) else none

end Memory

variable {s s' : Memory Cpu Addr Val} {own own' : Addr → Option Cpu} {c c' : Cpu} {a b : Addr} {v w : Val}
  {l : List (Addr × Val)} {m : Addr → Val}

lemma pending_append : pending (l ++ [(a, v)]) m = Function.update (pending l m) a v := by
  induction l generalizing m with
  | nil => rfl
  | cons e l ih => exact ih

lemma pending_of_notMem (h : ∀ w, (a, w) ∉ l) : pending l m a = m a := by
  induction l generalizing m with
  | nil => rfl
  | cons e l ih =>
    have hne : a ≠ e.1 := fun he => h e.2 (he ▸ by simp)
    have htail := ih (m := Function.update m e.1 e.2) fun w hw => h w (by simp [hw])
    exact htail.trans (Function.update_of_ne hne _ _)

lemma pending_update_of_ne (hne : a ≠ b) : pending l (Function.update m b v) a = pending l m a := by
  induction l generalizing m with
  | nil => exact Function.update_of_ne hne _ _
  | cons e l ih =>
    change pending l (Function.update (Function.update m b v) e.1 e.2) a = pending l (Function.update m e.1 e.2) a
    by_cases he : e.1 = b
    · subst he
      rw [Function.update_idem]
    · rw [Function.update_comm (Ne.symm he)]
      exact ih

/-- Only the owner of an address has stores to it under way. -/
def Owned (own : Addr → Option Cpu) (s : Memory Cpu Addr Val) : Prop :=
  ∀ c a v, (a, v) ∈ s.buf c → own a = some c

/-- What the owner of an address sees there, and memory where there is none. -/
def truth (own : Addr → Option Cpu) (s : Memory Cpu Addr Val) (a : Addr) : Val :=
  match own a with
  | some c => s.view c a
  | none => s.mem a

lemma truth_of_owner (h : own a = some c) : truth own s a = s.view c a := by
  rw [truth, h]

lemma truth_of_none (h : own a = none) : truth own s a = s.mem a := by
  rw [truth, h]

lemma view_of_not_owner (hs : Owned own s) (h : own a ≠ some c) : s.view c a = s.mem a :=
  pending_of_notMem fun w hw => h (hs c a w hw)

lemma view_of_drained (h : s.buf c = []) : s.view c = s.mem := by
  rw [Memory.view, h]
  rfl

variable [DecidableEq Cpu]

section Write

omit [DecidableEq Addr] in
@[simp] lemma write_mem : (s.write c a v).mem = s.mem := rfl

lemma view_write : (s.write c a v).view c = Function.update (s.view c) a v := by
  simp only [Memory.view, Memory.write, Function.update_self]
  exact pending_append

lemma view_write_of_ne (h : c' ≠ c) : (s.write c a v).view c' = s.view c' := by
  simp only [Memory.view, Memory.write, Function.update_of_ne h]

omit [DecidableEq Addr] in
lemma mem_write (h : (b, w) ∈ (s.write c a v).buf c') : (b, w) ∈ s.buf c' ∨ c' = c ∧ b = a ∧ w = v := by
  by_cases hc : c' = c
  · subst hc
    have hmem : (b, w) ∈ s.buf c' ++ [(a, v)] := by simpa [Memory.write] using h
    simpa using hmem
  · left
    simpa [Memory.write, Function.update_of_ne hc] using h

omit [DecidableEq Addr] in
lemma Owned.write (hs : Owned own s) (h : own a = some c) : Owned own (s.write c a v) := by
  intro c' b w hw
  rcases mem_write hw with hw | ⟨rfl, rfl, -⟩
  · exact hs c' b w hw
  · exact h

/-- A store of the owner is the truth at once. -/
lemma truth_write (h : own a = some c) : truth own (s.write c a v) = Function.update (truth own s) a v := by
  funext b
  by_cases hb : b = a
  · subst hb
    rw [truth_of_owner h, view_write, Function.update_self, Function.update_self]
  · rw [Function.update_of_ne hb]
    cases ho : own b with
    | none => rw [truth_of_none ho, truth_of_none ho, write_mem]
    | some d =>
      rw [truth_of_owner ho, truth_of_owner ho]
      by_cases hd : d = c
      · rw [hd, view_write, Function.update_of_ne hb]
      · rw [view_write_of_ne hd]

end Write

section Flush

lemma flush_cases (h : s.flush c = some s') : ∃ a v l, s.buf c = (a, v) :: l ∧
    s' = ⟨Function.update s.mem a v, Function.update s.buf c l⟩ := by
  unfold Memory.flush at h
  split at h
  · cases h
  · next a v l hl => exact ⟨a, v, l, hl, (Option.some.inj h).symm⟩

lemma mem_flush (h : s.flush c = some s') (hb : (b, w) ∈ s'.buf c') : (b, w) ∈ s.buf c' := by
  obtain ⟨a, v, l, hl, rfl⟩ := flush_cases h
  by_cases hc : c' = c
  · subst hc
    rw [hl]
    exact List.mem_cons_of_mem _ (by simpa using hb)
  · simpa [Function.update_of_ne hc] using hb

lemma Owned.flush (hs : Owned own s) (h : s.flush c = some s') : Owned own s' :=
  fun c' b w hw => hs c' b w (mem_flush h hw)

/-- No store changes the truth when it reaches memory. -/
lemma truth_flush (hs : Owned own s) (h : s.flush c = some s') : truth own s' = truth own s := by
  obtain ⟨a, v, l, hl, rfl⟩ := flush_cases h
  have ha : own a = some c := hs c a v (by simp [hl])
  funext b
  cases ho : own b with
  | none =>
    have hb : b ≠ a := fun he => by simp [← he, ho] at ha
    rw [truth_of_none ho, truth_of_none ho]
    exact Function.update_of_ne hb _ _
  | some d =>
    rw [truth_of_owner ho, truth_of_owner ho]
    by_cases hd : d = c
    · subst hd
      change pending (Function.update s.buf d l d) (Function.update s.mem a v) b = pending (s.buf d) s.mem b
      rw [Function.update_self, hl]
      rfl
    · have hb : b ≠ a := fun he => hd (Option.some.inj (ho.symm.trans (he ▸ ha)))
      change pending (Function.update s.buf c l d) (Function.update s.mem a v) b = pending (s.buf d) s.mem b
      rw [Function.update_of_ne hd]
      exact pending_update_of_ne hb

end Flush

section Exchange

omit [DecidableEq Cpu]

lemma xchg_cases (h : s.xchg c a v = some (w, s')) :
    s.buf c = [] ∧ w = s.mem a ∧ s' = { s with mem := Function.update s.mem a v } := by
  unfold Memory.xchg at h
  split_ifs at h with hb
  obtain ⟨hw, hs⟩ := Prod.mk.inj (Option.some.inj h)
  exact ⟨List.isEmpty_iff.1 hb, hw.symm, hs.symm⟩

/-- Owners may change where `c` was or becomes the owner, while its buffer is empty. -/
def Passes (c : Cpu) (own own' : Addr → Option Cpu) : Prop :=
  ∀ a, own a ≠ own' a → (own a = some c ∨ own a = none) ∧ (own' a = some c ∨ own' a = none)

omit [DecidableEq Addr] in
lemma Owned.pass (hs : Owned own s) (hb : s.buf c = []) (hp : Passes c own own') : Owned own' s := by
  intro d a v hv
  have ho := hs d a v hv
  by_cases he : own a = own' a
  · exact he ▸ ho
  · -- a processor with stores under way is not the one that gives or takes
    rcases (hp a he).1 with hc | hc
    · obtain rfl : d = c := Option.some.inj (ho.symm.trans hc)
      simp [hb] at hv
    · simp [ho] at hc

lemma truth_pass (hb : s.buf c = []) (hp : Passes c own own') : truth own' s = truth own s := by
  have hmem (o : Addr → Option Cpu) (a : Addr) (h : o a = some c ∨ o a = none) : truth o s a = s.mem a := by
    rcases h with h | h
    · rw [truth_of_owner h, view_of_drained hb]
    · exact truth_of_none h
  funext a
  by_cases he : own a = own' a
  · rw [truth, truth, he]
  · rw [hmem own a (hp a he).1, hmem own' a (hp a he).2]

/-- An exchange at an address that nobody owns changes the truth there only. -/
lemma truth_xchg (ha : own a = none) :
    truth own { s with mem := Function.update s.mem a v } = Function.update (truth own s) a v := by
  funext b
  by_cases hb : b = a
  · rw [hb, truth_of_none ha, Function.update_self]
    exact Function.update_self _ _ _
  · rw [Function.update_of_ne hb]
    cases ho : own b with
    | none =>
      rw [truth_of_none ho, truth_of_none ho]
      exact Function.update_of_ne hb _ _
    | some d =>
      rw [truth_of_owner ho, truth_of_owner ho]
      exact pending_update_of_ne hb

end Exchange

end Tso

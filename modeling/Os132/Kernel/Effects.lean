import Os132.Kernel.Threads

/-!
# What a step can change

`act_proc` lists, once for all operations, what a step that acts on memory does to a record of
the table. The facts about single fields that the invariants need are read off the list.
-/

namespace Os132

open Op

variable {flag : SchedFlag} {c : CpuId} {self : Option Slot} {ch : Choice} {m m' : Mem} {op : Op}
  {e : List Op}

section
variable (t : Nat) (p q : Proc)

@[simp] lemma Store.apply_state (f : Store) : (f.apply t p).state = p.state := by unfold Store.apply; split <;> rfl
@[simp] lemma Store.apply_pid (f : Store) : (f.apply t p).pid = p.pid := by unfold Store.apply; split <;> rfl
@[simp] lemma Store.apply_parent (f : Store) : (f.apply t p).parent = p.parent := by unfold Store.apply; split <;> rfl
@[simp] lemma Store.apply_kstack (f : Store) : (f.apply t p).kstack = p.kstack := by unfold Store.apply; split <;> rfl
@[simp] lemma Store.apply_pgdir (f : Store) : (f.apply t p).pgdir = p.pgdir := by unfold Store.apply; split <;> rfl
@[simp] lemma Store.apply_sz (f : Store) : (f.apply t p).sz = p.sz := by unfold Store.apply; split <;> rfl
@[simp] lemma Store.apply_name (f : Store) : (f.apply t p).name = p.name := by unfold Store.apply; split <;> rfl
@[simp] lemma Store.apply_ctime (f : Store) : (f.apply t p).ctime = p.ctime := by unfold Store.apply; split <;> rfl

@[simp] lemma NpStore.apply_state (f : NpStore) : (f.apply q p).state = p.state := by unfold NpStore.apply; split <;> rfl
@[simp] lemma NpStore.apply_pid (f : NpStore) : (f.apply q p).pid = p.pid := by unfold NpStore.apply; split <;> rfl
@[simp] lemma NpStore.apply_parent (f : NpStore) : (f.apply q p).parent = p.parent := by unfold NpStore.apply; split <;> rfl
@[simp] lemma NpStore.apply_chan (f : NpStore) : (f.apply q p).chan = p.chan := by unfold NpStore.apply; split <;> rfl
@[simp] lemma NpStore.apply_killed (f : NpStore) : (f.apply q p).killed = p.killed := by unfold NpStore.apply; split <;> rfl
@[simp] lemma NpStore.apply_kstack (f : NpStore) : (f.apply q p).kstack = p.kstack := by unfold NpStore.apply; split <;> rfl
@[simp] lemma NpStore.apply_pgdir (f : NpStore) : (f.apply q p).pgdir = p.pgdir := by unfold NpStore.apply; split <;> rfl

@[simp] lemma LateStore.apply_state (f : LateStore) : (f.apply t q p).state = p.state := by unfold LateStore.apply; split <;> rfl
@[simp] lemma LateStore.apply_pid (f : LateStore) : (f.apply t q p).pid = p.pid := by unfold LateStore.apply; split <;> rfl
@[simp] lemma LateStore.apply_parent (f : LateStore) : (f.apply t q p).parent = p.parent := by unfold LateStore.apply; split <;> rfl
@[simp] lemma LateStore.apply_chan (f : LateStore) : (f.apply t q p).chan = p.chan := by unfold LateStore.apply; split <;> rfl
@[simp] lemma LateStore.apply_killed (f : LateStore) : (f.apply t q p).killed = p.killed := by unfold LateStore.apply; split <;> rfl
@[simp] lemma LateStore.apply_kstack (f : LateStore) : (f.apply t q p).kstack = p.kstack := by unfold LateStore.apply; split <;> rfl
@[simp] lemma LateStore.apply_pgdir (f : LateStore) : (f.apply t q p).pgdir = p.pgdir := by unfold LateStore.apply; split <;> rfl

end

/-- The operations that wake sleeping processes. -/
def Op.wakes : Op → Prop
  | wakeupParent | reparent | wakeup1 _ => True
  | _ => False

/-- The changes of the record of slot `j`, from `p`, in a step that acts on memory. -/
inductive ProcChange (m : Mem) (self : Option Slot) (ch : Choice) (op : Op) (j : Slot) (p : Proc) : Proc → Prop
  | same : ProcChange m self ch op j p p
  | store (f : Store) (ho : op = store f) (hj : self = some j) :
      ProcChange m self ch op j p (f.apply m.ticks p)
  | leave (st : ProcState) (ho : op = schedAs st) (hj : self = some j) :
      ProcChange m self ch op j p { p with state := st }
  | alloc (ho : op = allocproc) (hj : m.proc.find Proc.isUnused = some j) :
      ProcChange m self ch op j p { p with state := .embryo, pid := m.nextpid }
  | kstack (v : Option Nat) (ho : op = allocKstack j)
      (hv : v = none ∧ ch = .noPage ∨ ∃ n, v = some n ∧ ch = .page n ∧ m.kmem n = false) :
      ProcChange m self ch op j p { p with kstack := v }
  | pgdir (v : Option Nat) (ho : op = copyuvm j)
      (hv : v = none ∧ ch = .noPage ∨ ∃ n, v = some n ∧ ch = .page n ∧ m.kmem n = false) :
      ProcChange m self ch op j p { p with pgdir := v }
  | freeKstack (ho : op = freeKstack j) : ProcChange m self ch op j p { p with kstack := none }
  | free (ho : op = forkUnused j) : ProcChange m self ch op j p { p with state := .unused }
  | np (f : NpStore) (q : Slot) (ho : op = np j f) (hq : self = some q) :
      ProcChange m self ch op j p (f.apply (m.proc q) p)
  | parent (q : Slot) (ho : op = forkParent j) (hq : self = some q) :
      ProcChange m self ch op j p { p with parent := some q }
  | publish (ho : op = forkRunnable j) : ProcChange m self ch op j p { p with state := .runnable }
  | late (f : LateStore) (q : Slot) (ho : op = late j f) (hq : self = some q) :
      ProcChange m self ch op j p (f.apply m.ticks (m.proc q) p)
  | wake (ho : op.wakes) (hp : p.state = .sleeping) : ProcChange m self ch op j p { p with state := .runnable }
  | adopt (ho : op = reparent) (hp : p.parent = self) (hs : self.isSome) :
      ProcChange m self ch op j p { p with parent := some initproc }
  | adoptWake (ho : op = reparent) (hp : p.parent = self) (hs : self.isSome) (hst : p.state = .sleeping) :
      ProcChange m self ch op j p { p with parent := some initproc, state := .runnable }
  | kill (pid : Int) (ho : op = Op.kill pid) (hj : m.proc.find (fun p => p.pid = pid) = some j) :
      ProcChange m self ch op j p p.kill
  | reap (two : Bool) (i : Slot) (ho : op = Op.wait two) (hi : self = some i)
      (hj : m.proc.find (Proc.isZombieOf i) = some j) : ProcChange m self ch op j p p.reap
  | report (z : Slot) (ho : op = Op.wait true) (hj : self = some j)
      (hz : m.proc.find (Proc.isZombieOf j) = some z) : ProcChange m self ch op j p ((m.proc z).report p)
  | reapReport (ho : op = Op.wait true) (hj : self = some j)
      (hz : m.proc.find (Proc.isZombieOf j) = some j) : ProcChange m self ch op j p ((m.proc j).report p.reap)

lemma Table.find_unused {tbl : Table} {i : Slot} (h : tbl.find Proc.isUnused = some i) :
    (tbl i).state = .unused := by
  simpa [Proc.isUnused] using Table.find_some h

lemma Table.find_zombie {tbl : Table} {i j : Slot} (h : tbl.find (Proc.isZombieOf i) = some j) :
    (tbl j).parent = some i ∧ (tbl j).state = .zombie := by
  simpa [Proc.isZombieOf] using Table.find_some h

lemma procChange_set {i j : Slot} {f : Proc → Proc}
    (h : j = i → ProcChange m self ch op j (m.proc j) (f (m.proc j))) :
    ProcChange m self ch op j (m.proc j) (m.proc.set i f j) := by
  rw [Table.set_apply]
  split_ifs with hj
  · exact h hj
  · exact .same

theorem act_proc (h : act flag c self ch m op = some (m', e)) (j : Slot) :
    ProcChange m self ch op j (m.proc j) (m'.proc j) := by
  cases op <;> try (simp [act] at h; done)
  all_goals simp only [act, Option.some.injEq, Prod.mk.injEq, Option.map_eq_some_iff] at h
  case syscall | timerIrq | tick | forkretFirst | sleepTicks0 | sleepTest | forkPid =>
    obtain ⟨rfl, -⟩ := h
    exact .same
  case kcode | kcodeNosleep | exit | nice | yieldMedium | sleepKilled =>
    obtain ⟨_, _, rfl, -⟩ := h
    exact .same
  case ifKilledExit | ifYield =>
    cases self <;> obtain ⟨rfl, -⟩ := Prod.mk.inj (Option.some.inj h) <;> exact .same
  case freeKstack i =>
    obtain ⟨rfl, -⟩ := h
    dsimp only
    refine procChange_set ?_
    rintro rfl
    exact .freeKstack rfl
  case forkUnused i =>
    obtain ⟨rfl, -⟩ := h
    dsimp only
    refine procChange_set ?_
    rintro rfl
    exact .free rfl
  case forkRunnable i =>
    obtain ⟨rfl, -⟩ := h
    dsimp only
    refine procChange_set ?_
    rintro rfl
    exact .publish rfl
  case np i f =>
    obtain ⟨q, hq, rfl, -⟩ := h
    dsimp only
    refine procChange_set ?_
    rintro rfl
    exact .np f q rfl hq
  case late i f =>
    obtain ⟨q, hq, rfl, -⟩ := h
    dsimp only
    refine procChange_set ?_
    rintro rfl
    exact .late f q rfl hq
  case forkParent i =>
    obtain ⟨q, hq, rfl, -⟩ := h
    dsimp only
    refine procChange_set ?_
    rintro rfl
    exact .parent q rfl hq
  case store f =>
    cases self with
    | none => obtain ⟨rfl, -⟩ := Prod.mk.inj (Option.some.inj h); exact .same
    | some i =>
      obtain ⟨rfl, -⟩ := Prod.mk.inj (Option.some.inj h)
      dsimp only
      refine procChange_set ?_
      rintro rfl
      exact .store f rfl rfl
  case schedAs st =>
    obtain ⟨i, hi, rfl, -⟩ := h
    dsimp only
    refine procChange_set ?_
    rintro rfl
    exact .leave st rfl hi
  case allocKstack i =>
    cases ch <;> simp only [reduceCtorEq] at h
    case page n =>
      split_ifs at h with hn
      obtain ⟨rfl, -⟩ := Prod.mk.inj (Option.some.inj h)
      dsimp only
      refine procChange_set ?_
      rintro rfl
      exact .kstack (some n) rfl (Or.inr ⟨n, rfl, rfl, by simpa using hn⟩)
    case noPage =>
      obtain ⟨rfl, -⟩ := Prod.mk.inj (Option.some.inj h)
      dsimp only
      refine procChange_set ?_
      rintro rfl
      exact .kstack none rfl (Or.inl ⟨rfl, rfl⟩)
  case copyuvm i =>
    cases ch <;> simp only [reduceCtorEq] at h
    case page n =>
      split_ifs at h with hn
      obtain ⟨rfl, -⟩ := Prod.mk.inj (Option.some.inj h)
      dsimp only
      refine procChange_set ?_
      rintro rfl
      exact .pgdir (some n) rfl (Or.inr ⟨n, rfl, rfl, by simpa using hn⟩)
    case noPage =>
      obtain ⟨rfl, -⟩ := Prod.mk.inj (Option.some.inj h)
      dsimp only
      refine procChange_set ?_
      rintro rfl
      exact .pgdir none rfl (Or.inl ⟨rfl, rfl⟩)
  case allocproc =>
    split at h <;> obtain ⟨rfl, -⟩ := Prod.mk.inj (Option.some.inj h)
    · rename_i i hi
      dsimp only
      refine procChange_set ?_
      rintro rfl
      exact .alloc rfl hi
    · exact .same
  case wakeup1 | wakeupParent =>
    first | obtain ⟨rfl, -⟩ := h | obtain ⟨_, -, rfl, -⟩ := h
    dsimp only [Table.wakeup1]
    split_ifs with hs
    · exact .wake trivial hs.1
    · exact .same
  case reparent =>
    obtain ⟨i, rfl, rfl, -⟩ := h
    dsimp only
    split_ifs
    · simp only [Table.wakeup1, Table.adopt]
      by_cases hp : (m.proc j).parent = some i
      · simp only [hp, if_true]
        split_ifs with hs
        · exact .adoptWake rfl hp rfl hs.1
        · exact .adopt rfl hp rfl
      · simp only [hp, if_false]
        split_ifs with hs
        · exact .wake trivial hs.1
        · exact .same
    · simp only [Table.adopt]
      split_ifs with hp
      · exact .adopt rfl hp rfl
      · exact .same
  case kill pid =>
    split at h <;> obtain ⟨rfl, -⟩ := Prod.mk.inj (Option.some.inj h)
    · rename_i i hi
      dsimp only
      refine procChange_set ?_
      rintro rfl
      exact .kill pid rfl hi
    · exact .same
  case wait two =>
    obtain ⟨i, rfl, h⟩ := h
    split at h
    case h_1 z hz =>
      obtain ⟨rfl, -⟩ := Prod.mk.inj h
      dsimp only
      cases two with
      | false =>
        refine procChange_set ?_
        rintro rfl
        exact .reap false i rfl rfl hz
      | true =>
        simp only [if_true, Table.set_apply]
        by_cases hji : j = i
        · subst hji
          by_cases hjz : j = z
          · subst hjz
            simpa using ProcChange.reapReport rfl rfl hz
          · simpa [hjz] using ProcChange.report z rfl rfl hz
        · by_cases hjz : j = z
          · subst hjz
            simpa [hji] using ProcChange.reap true i rfl rfl hz
          · simpa [hji, hjz] using ProcChange.same
    case h_2 =>
      split_ifs at h <;> obtain ⟨rfl, -⟩ := Prod.mk.inj h <;> exact .same

end Os132

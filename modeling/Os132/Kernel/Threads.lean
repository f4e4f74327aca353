import Os132.Kernel.Typing

/-!
# Locks and the interrupt flag of a CPU

`CpuOk s c g` says that the thread a CPU runs is at signature `g`: the CPU holds exactly the
locks of `g`, `ncli` counts them, and while it holds one interrupts are off and `intena` is the
flag that the thread has outside its critical sections.
-/

namespace Os132

open Op

structure CpuOk (s : State) (c : CpuId) (g : Sig) : Prop where
  thread : ThreadOk g (s.ops c)
  held : ∀ lk, lk ∈ g.held ↔ s.lock lk = some c
  nodup : g.held.Nodup
  ncli : (s.cpu c).ncli = g.held.length + if spinning (s.ops c) then 1 else 0
  on : (s.cpu c).ncli = 0 → (s.cpu c).ie = g.ie
  off : (s.cpu c).ncli ≠ 0 → (s.cpu c).ie = false ∧ (s.cpu c).intena = g.ie

/-- A step that leaves the thread of a CPU in place: it rewrites what that thread has left to
execute and its CPU's own variables, and takes or drops locks for that CPU only. -/
structure ThreadStep (s s' : State) (c : CpuId) (l : List Op) : Prop where
  others : ∀ d, d ≠ c → s'.cpu d = s.cpu d
  proc : (s'.cpu c).proc = (s.cpu c).proc
  kstk : ∀ q, s'.kstk q = if (s.cpu c).proc = some q then l else s.kstk q
  cops : (s'.cpu c).ops = if (s.cpu c).proc = none then l else (s.cpu c).ops
  intena : s'.intena = s.intena
  lock : ∀ lk d, d ≠ c → (s'.lock lk = some d ↔ s.lock lk = some d)

namespace ThreadStep

variable {s s' : State} {c : CpuId} {l : List Op}

lemma ops (h : ThreadStep s s' c l) : s'.ops c = l := by
  unfold State.ops
  rw [h.proc]
  cases hp : (s.cpu c).proc with
  | none => simp [h.cops, hp]
  | some p => simp [h.kstk, hp]

lemma proc_eq (h : ThreadStep s s' c l) (d : CpuId) : (s'.cpu d).proc = (s.cpu d).proc := by
  by_cases hd : d = c
  · rw [hd, h.proc]
  · rw [h.others d hd]

lemma ops_ne (h : ThreadStep s s' c l) {d : CpuId} (hd : d ≠ c)
    (hinj : ∀ p, (s.cpu c).proc = some p → (s.cpu d).proc ≠ some p) : s'.ops d = s.ops d := by
  unfold State.ops
  rw [h.others d hd]
  cases hp : (s.cpu d).proc with
  | none => rfl
  | some p =>
    have hne : (s.cpu c).proc ≠ some p := fun hc => hinj p hc hp
    simp [h.kstk, hne]

lemma cpuOk_ne (h : ThreadStep s s' c l) {d : CpuId} {g : Sig} (hd : d ≠ c)
    (hinj : ∀ p, (s.cpu c).proc = some p → (s.cpu d).proc ≠ some p) (hok : CpuOk s d g) :
    CpuOk s' d g := by
  have ho := h.ops_ne hd hinj
  have hc := h.others d hd
  exact ⟨ho ▸ hok.thread, fun lk => (hok.held lk).trans (h.lock lk d hd).symm, hok.nodup,
    by rw [hc, ho]; exact hok.ncli, by rw [hc]; exact hok.on, by rw [hc]; exact hok.off⟩

end ThreadStep

lemma threadStep_setCpu (s : State) (c : CpuId) (l : List Op) (f : Cpu → Cpu)
    (hp : ∀ k, (f k).proc = k.proc) (ho : ∀ k, (f k).ops = k.ops) :
    ThreadStep s ((s.setOps c l).setCpu c f) c l where
  others d hd := by rw [State.setCpu_ne _ _ _ hd, State.setOps_ne _ _ _ hd]
  proc := by rw [State.setCpu_self, hp, State.setOps_self]
  kstk q := by rw [State.setCpu_kstk, State.setOps_kstk]
  cops := by rw [State.setCpu_self, ho, State.setOps_self]
  intena := by simp
  lock lk d _ := by simp

lemma threadStep_setOps (s : State) (c : CpuId) (l : List Op) (m : Mem) :
    ThreadStep s { s.setOps c l with mem := m } c l where
  others d hd := State.setOps_ne _ _ _ hd
  proc := by simp [State.setOps_self]
  kstk q := State.setOps_kstk _ _ _ _
  cops := by simp [State.setOps_self]
  intena := by simp
  lock lk d _ := by simp

lemma threadStep_ops (s : State) (c : CpuId) (l : List Op) : ThreadStep s (s.setOps c l) c l :=
  have h := threadStep_setOps s c l s.mem
  ⟨h.others, h.proc, h.kstk, h.cops, h.intena, h.lock⟩

variable {flag : SchedFlag} {ch : Choice} {s : State} {c : CpuId} {g : Sig} {r : List Op}

namespace CpuOk

lemma typed {op : Op} (h : CpuOk s c g) (ho : s.ops c = op :: r) (h1 : ∀ lk, op ≠ spin lk)
    (h2 : op ≠ Op.sched) : Typed g (op :: r) := by
  have := h.thread
  rw [ho] at this
  cases op <;> first | exact this | exact absurd rfl h2 | exact absurd rfl (h1 _)

lemma ncli_eq {op : Op} (h : CpuOk s c g) (ho : s.ops c = op :: r) (h1 : ∀ lk, op ≠ spin lk) :
    (s.cpu c).ncli = g.held.length := by
  have := h.ncli
  rw [ho] at this
  cases op <;> simp_all [spinning]

/-- With interrupts on, the CPU holds no lock and the thread is in none of the loops. -/
lemma of_ie (h : CpuOk s c g) (hi : (s.cpu c).ie = true) :
    g.held = [] ∧ (s.cpu c).ncli = 0 ∧ g.ie = true ∧ Typed g (s.ops c) := by
  have h0 : (s.cpu c).ncli = 0 := by
    by_contra hne
    simp [(h.off hne).1] at hi
  have hn := h.ncli
  have hs : spinning (s.ops c) = false := by
    cases hsp : spinning (s.ops c)
    · rfl
    · rw [hsp, h0] at hn; simp at hn; omega
  have hl : g.held = [] := by
    rw [h0, hs] at hn
    simpa using hn.symm
  refine ⟨hl, h0, (h.on h0).symm.trans hi, h.thread.typed hs ?_⟩
  have ht := h.thread
  unfold ThreadOk at ht
  unfold atSched
  split at ht <;> simp_all

end CpuOk

lemma cpuOk_acquire {lk : Lock} (h : CpuOk s c g) (ho : s.ops c = acquire lk :: r) :
    s.lock lk ≠ some c ∧ CpuOk ((s.setOps c (spin lk :: r)).setCpu c Cpu.pushcli) c g := by
  have ht := h.typed ho (by simp) (by simp)
  have hnot : lk ∉ g.held := by
    have ha := ht.1
    cases lk <;> simp only [Op.pre, Lock.allowed] at ha
    · exact ha
    · rcases ha with ha | ha <;> simp [ha]
    · simp [ha]
  have hts := threadStep_setCpu s c (spin lk :: r) Cpu.pushcli (fun _ => rfl) (fun _ => rfl)
  have hn := h.ncli_eq ho (by simp)
  refine ⟨fun hl => hnot ((h.held lk).mpr hl), ?_, ?_, h.nodup, ?_, ?_, ?_⟩
  · rw [hts.ops]; exact ht
  · intro l; simpa using h.held l
  · rw [hts.ops]; simp [Cpu.pushcli, State.setOps_self, hn, spinning]
  · intro h0
    simp [Cpu.pushcli, State.setOps_self, hn] at h0
    omega
  · intro _
    refine ⟨by simp [Cpu.pushcli], ?_⟩
    simp only [State.setCpu_self, Cpu.pushcli, State.setOps_self]
    split_ifs with h0
    · exact h.on h0
    · exact (h.off h0).2

lemma cpuOk_spin {lk : Lock} (h : CpuOk s c g) (ho : s.ops c = spin lk :: r) (hf : s.lock lk = none) :
    CpuOk { s.setOps c r with lock := fun l => if l = lk then some c else s.lock l } c
      { g with held := lk :: g.held } := by
  have ht : Typed g (acquire lk :: r) := by simpa [ho, ThreadOk] using h.thread
  have hr := (typed_cons ht (by simp)).2
  have hops : ({ s.setOps c r with lock := fun l => if l = lk then some c else s.lock l } : State).ops c = r :=
    (threadStep_setOps s c r s.mem).ops
  have hn := h.ncli
  rw [ho] at hn
  refine ⟨?_, ?_, ?_, ?_, ?_, ?_⟩
  · rw [hops]; exact hr.threadOk
  · intro l
    simp only [List.mem_cons, h.held l]
    split_ifs with hl <;> simp [hl]
  · refine List.nodup_cons.mpr ⟨fun hm => ?_, h.nodup⟩
    rw [h.held, hf] at hm
    simp at hm
  · rw [hops, hr.not_spinning]
    simpa [State.setOps_self, spinning] using hn
  · simpa [State.setOps_self] using h.on
  · simpa [State.setOps_self] using h.off

/-- The interrupt state after the `popcli` of a `release`. -/
def Cpu.popped (k : Cpu) : Cpu :=
  { k with ncli := k.ncli - 1, ie := k.ncli - 1 = 0 && k.intena }

lemma threadStep_unlock (s : State) (c : CpuId) (lk : Lock) (l : List Op) (k : Cpu)
    (hl : s.lock lk = some c) : ThreadStep s (s.unlock c lk l k) c l := by
  have hts := threadStep_setCpu s c l (fun d => { d with ncli := k.ncli, ie := k.ie })
    (fun _ => rfl) (fun _ => rfl)
  refine ⟨hts.others, hts.proc, hts.kstk, hts.cops, hts.intena, fun m d hd => ?_⟩
  by_cases hm : m = lk
  · simp [State.unlock, hm, hl, Ne.symm hd]
  · simp [State.unlock, hm]

lemma cpuOk_release {lk : Lock} (h : CpuOk s c g) (ho : s.ops c = release lk :: r) :
    s.lock lk = some c ∧ s.releaseStep c lk r = s.unlock c lk r (s.cpu c).popped ∧
      CpuOk (s.unlock c lk r (s.cpu c).popped) c { g with held := g.held.erase lk } := by
  have hp := typed_cons (h.typed ho (by simp) (by simp)) (by simp)
  have hmem : lk ∈ g.held := hp.1
  have hlock : s.lock lk = some c := (h.held lk).mp hmem
  have hlen : 0 < g.held.length := List.length_pos_of_mem hmem
  have hn := h.ncli_eq ho (by simp)
  have hoff := h.off (by omega)
  have hpop : (s.cpu c).popcli = some (s.cpu c).popped := by
    unfold Cpu.popcli
    rw [if_neg (by simp [hoff.1]), if_neg (by omega)]
    rfl
  have hops := (threadStep_unlock s c lk r (s.cpu c).popped hlock).ops
  have hcpu : ((s.unlock c lk r (s.cpu c).popped).cpu c).ncli = (s.cpu c).ncli - 1 ∧
      ((s.unlock c lk r (s.cpu c).popped).cpu c).ie = (decide ((s.cpu c).ncli - 1 = 0) && (s.cpu c).intena) ∧
      ((s.unlock c lk r (s.cpu c).popped).cpu c).intena = (s.cpu c).intena := by
    simp [State.unlock, Cpu.popped, State.setOps_self]
  refine ⟨hlock, by simp [State.releaseStep, hlock, hpop], ?_, ?_, h.nodup.erase lk, ?_, ?_, ?_⟩
  · rw [hops]; exact hp.2.threadOk
  · intro l
    rw [h.nodup.mem_erase_iff, h.held]
    by_cases hl : l = lk <;> simp [State.unlock, hl]
  · rw [hops, hp.2.not_spinning, hcpu.1, hn]
    simp only [List.length_erase_of_mem hmem, Bool.false_eq_true, if_false]
    omega
  · intro h0
    rw [hcpu.1] at h0
    rw [hcpu.2.1, h0, hoff.2]
    simp
  · intro h0
    rw [hcpu.1] at h0
    rw [hcpu.2.1, hcpu.2.2]
    simp [h0, hoff.2]

/-- Changing the interrupt flag outside all critical sections. -/
lemma cpuOk_setIe {l : List Op} {b : Bool} {f : Cpu → Cpu} (h : CpuOk s c g)
    (h0 : (s.cpu c).ncli = 0) (hl : Typed { g with ie := b } l) (hp : ∀ k, (f k).proc = k.proc)
    (ho : ∀ k, (f k).ops = k.ops) (hn : ∀ k, (f k).ncli = k.ncli) (hf : ∀ k, (f k).ie = b) :
    CpuOk ((s.setOps c l).setCpu c f) c { g with ie := b } := by
  have hops := (threadStep_setCpu s c l f hp ho).ops
  have hlen : (g.held.length : Int) = 0 := by
    have := h.ncli
    split_ifs at this <;> omega
  refine ⟨?_, fun lk => by simpa using h.held lk, h.nodup, ?_, ?_, ?_⟩
  · rw [hops]; exact hl.threadOk
  · rw [hops, hl.not_spinning]; simp [hn, State.setOps_self, h0, hlen]
  · intro _; simp [hf]
  · intro hne; simp [hn, State.setOps_self, h0] at hne

/-- Rewriting what the thread has left to execute, outside the loop of `acquire`. -/
lemma cpuOk_of_threadStep {s' : State} {l : List Op} {e : Option (Slot × Nat)}
    (hts : ThreadStep s s' c l) (hlock : s'.lock = s.lock)
    (hn : (s'.cpu c).ncli = (s.cpu c).ncli) (hi : (s'.cpu c).ie = (s.cpu c).ie)
    (hin : (s'.cpu c).intena = (s.cpu c).intena) (h : CpuOk s c g)
    (hs : spinning (s.ops c) = false) (hl : ThreadOk { g with emb := e } l)
    (hsl : spinning l = false) : CpuOk s' c { g with emb := e } := by
  refine ⟨?_, fun lk => by rw [hlock]; exact h.held lk, h.nodup, ?_, ?_, ?_⟩
  · rw [hts.ops]; exact hl
  · rw [hts.ops, hsl, hn, h.ncli, hs]
  · rw [hn, hi]; exact h.on
  · rw [hn, hi, hin]; exact h.off

lemma cpuOk_iret (h : CpuOk s c g) (ho : s.ops c = iret :: r) :
    CpuOk ((s.setOps c r).setCpu c fun k => { k with ie := true }) c { g with ie := true } := by
  have hp := typed_cons (h.typed ho (by simp) (by simp)) (by simp)
  have hh : g.held = [] := hp.1
  have hn : (s.cpu c).ncli = 0 := by simpa [hh] using h.ncli_eq ho (by simp)
  exact cpuOk_setIe h hn hp.2 (fun _ => rfl) (fun _ => rfl) (fun _ => rfl) (fun _ => rfl)

lemma typed_trapTimer {emb : Option (Slot × Nat)} {sch : Bool} {l : List Op} (u : Bool) (hu : u = true → emb = none)
    (hl : Typed ⟨[], true, emb, sch⟩ l) : Typed ⟨[], false, emb, sch⟩ (trapTimer u ++ l) := by
  simpa [trapTimer, Typed, Op.pre, Op.post, Op.switches] using And.intro hu hl

lemma typed_trapDevice {emb : Option (Slot × Nat)} {sch : Bool} {l : List Op} (u : Bool) (hu : u = true → emb = none)
    (hl : Typed ⟨[], true, emb, sch⟩ l) : Typed ⟨[], false, emb, sch⟩ (trapDevice u ++ l) := by
  simpa [trapDevice, Typed, Op.pre, Op.post, Op.switches, lockOf] using And.intro hu hl

lemma emb_of_user {l : List Op} (h : Typed g l) (hu : (l.head? == some user) = true) : g.emb = none := by
  cases l with
  | nil => simp at hu
  | cons op r =>
    simp only [List.head?_cons, beq_iff_eq, Option.some.injEq] at hu
    subst hu
    exact h.1.2.2.1

lemma cpuOk_interrupt {s' : State} {handler : Bool → List Op} (h : CpuOk s c g)
    (hty : ∀ emb sch u l, (u = true → emb = none) → 
      Typed ⟨[], true, emb, sch⟩ l → Typed ⟨[], false, emb, sch⟩ (handler u ++ l))
    (hs : interrupt s c handler = some s') :
    ∃ l, ThreadStep s s' c l ∧ s'.mem = s.mem ∧ s'.panicked = s.panicked ∧ atSched (s.ops c) = false ∧
      atSched l = false ∧ spinning l = false ∧ CpuOk s' c { g with ie := false } := by
  unfold interrupt at hs
  split_ifs at hs with hi
  obtain ⟨hh, h0, hie, ht⟩ := h.of_ie hi
  obtain ⟨held, ie, emb, sch⟩ := g
  simp only at hh hie
  subst hh hie
  have hty' := hty emb sch ((s.ops c).head? == some user) (s.ops c) (fun hu => emb_of_user ht hu) ht
  obtain rfl := Option.some.inj hs
  exact ⟨_, threadStep_setCpu s c _ _ (fun _ => rfl) (fun _ => rfl), by simp,
    by unfold State.setOps; split <;> rfl, ht.not_atSched, hty'.not_atSched,
    hty'.not_spinning,
    cpuOk_setIe h h0 hty' (fun _ => rfl) (fun _ => rfl) (fun _ => rfl) (fun _ => rfl)⟩

end Os132

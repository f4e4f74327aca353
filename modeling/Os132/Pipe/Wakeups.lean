import Os132.Pipe.Invariant

/-!
# What a pipe promises

`Sound` collects it: the counters, the order of the bytes, the meaning of the results, and that nobody sleeps
without a reason while the lock is free. It holds in every run in which no killed writer abandons sleeping readers;
the run at the end is one in which a writer does.
-/

namespace Os132

namespace Pipes

variable {P : Type} [DecidableEq P] {s s' : State P} {p q : P}

/-- What holds of the pipe in state `s`. -/
structure Sound (s : State P) : Prop where
  bound : (s.pipe.nwrite - s.pipe.nread).toNat ≤ PIPESIZE.toNat
  order : s.returned <+: s.stored.map Prod.snd
  /-- a write that is about to return `v` has stored its bytes since it began -/
  wrote : ∀ p w a v, s.pc p = .write w a → s.result p = some v → 0 ≤ v →
    v = w.n ∧ (s.storedBy p).drop w.base = (List.range w.n.toNat).map w.src
  /-- a read that is about to return 0 bytes of more has found the pipe empty and closed -/
  eof : ∀ p r a, s.pc p = .read r a → 0 < r.n → s.result p = some 0 →
    s.pipe.empty = true ∧ s.pipe.writeopen = false ∧ s.wfds = []
  readers : s.lock = none → ∀ p r, s.pc p = .read r .asleep → s.pipe.empty = true ∧ s.pipe.writeopen = true
  writers : s.lock = none → ∀ p w, s.pc p = .write w .asleep → s.pipe.full = true ∧ s.pipe.readopen = true

theorem Inv.sound (h : Inv s) : Sound s := by
  have hfree (hl : s.lock = none) (q : P) : (s.pc q).holds = false := by
    have := h.who.holder q
    simpa [hl] using this
  refine ⟨h.flow.bound, ⟨s.inHand ++ s.pipe.contents, ?_⟩, fun p w a v hpc hres h0 => ?_, fun p r a hpc hn hres => ?_,
    fun hl p r hpc => ?_, fun hl p w hpc => ?_⟩
  · rw [h.flow.bytes, List.append_assoc]
  · obtain ⟨hi, -, hdrop⟩ := h.flow.wrote p w a hpc
    cases a <;> simp only [State.result, hpc] at hres <;> try cases hres
    split_ifs at hres with hlt hf
    · cases hres
      omega
    · obtain rfl : w.n = v := Option.some.inj hres
      have hlen : w.n.toNat = w.i := by omega
      exact ⟨rfl, by rw [hdrop, hlen]⟩
  · cases a <;> simp only [State.result, hpc] at hres <;> try cases hres
    · split_ifs at hres
      exact absurd hres (by decide)
    · split_ifs at hres with hc
      have hlen : (r.got.length : ℤ) = 0 := Option.some.inj hres
      have hres : r.got = [] := List.eq_nil_of_length_eq_zero (by omega)
      have he : s.pipe.empty = true := by
        simpa [hres, hn] using hc
      have hw := h.flow.eof p r hpc hres he
      exact ⟨he, hw, h.who.shutW hw⟩
  · rcases h.sleepers.readers p r hpc with hr | ⟨q, w, hq⟩
    · exact hr
    · have := hfree hl q
      rw [hq] at this
      cases this
  · rcases h.sleepers.writers p w hpc with hw | ⟨q, r, hq⟩
    · exact hw
    · have := hfree hl q
      rw [hq] at this
      cases this

/-- No writer that was killed gives up while a reader sleeps. -/
def NoAbandon (s : State P) (l : Label P) : Prop := ∀ p, l = .act p → ¬ s.Abandons p

/-- **A pipe in every run** in which no writer abandons sleeping readers. -/
theorem sound_of_run {n : ℕ} (r : Lts.Run Start step n) (h : r.Meets (NoAbandon (P := P))) (k : ℕ) (hk : k ≤ n) :
    Sound (r.state k) :=
  (r.invariant_of h (fun _ hs => inv_start hs) (fun _ _ _ hi hok hstep => inv_step hi hok hstep) k hk).sound

/-! ### A writer that is killed -/

/-- A fresh pipe of process `false`. -/
def fresh : State Bool where
  pipe := ⟨fun _ => 0, 0, 0, true, true⟩
  lock := none
  pc := fun _ => .idle
  killed := fun _ => false
  rfds := [false]
  wfds := [false]
  stored := []
  returned := []

lemma start_fresh : Start fresh :=
  ⟨rfl, rfl, rfl, rfl, rfl, fun _ => rfl, ⟨false, rfl, rfl⟩, rfl, rfl⟩

instance : Inhabited (Label Bool) := ⟨.kill false⟩

/-- `true` gets a write descriptor, `false` sleeps in a read, `true` writes a byte and wakes it, and the read returns
the byte. -/
def wokenReader : List (Label Bool) :=
  [.share false true true, .read false 1, .act false, .act false, .act false, .write true (fun _ => 7) 1, .act true, .act true,
    .act true, .act false, .act false, .act false, .act false]

theorem sound_of_run_wokenReader : ∃ r : Lts.Run Start step wokenReader.length, r.Meets (NoAbandon (P := Bool)) ∧
    (r.state wokenReader.length).returned = [7] ∧ ∀ k, k ≤ wokenReader.length → Sound (r.state k) := by
  obtain ⟨r, hq, hp⟩ := Lts.exists_run_of_check step wokenReader (fun _ s _ => !s.killed false && !s.killed true)
    (fun s => s.returned == [7]) start_fresh (by decide +kernel)
  have hm : r.Meets NoAbandon := by
    rintro k hk p - ⟨w, -, -, -, -, hkill, -⟩
    have := hq k hk
    cases p <;> simp_all
  exact ⟨r, hm, by simpa using hp, sound_of_run r hm⟩

/-- `true` gets a write descriptor, `false` sleeps in a read, `true` fills the pipe, is killed and gives up. -/
def killWriter : List (Label Bool) :=
  [.share false true true, .read false 1, .act false, .act false, .act false, .write true (fun _ => 0) 513, .act true] ++
    List.replicate 512 (.act true) ++ [.kill true, .act true]

def Pc.sleepsInRead : Pc → Bool
  | .read _ .asleep => true
  | _ => false

lemma sleepsInRead_iff {pc : Pc} : pc.sleepsInRead = true ↔ ∃ r, pc = .read r .asleep := by
  unfold Pc.sleepsInRead
  split <;> simp_all

theorem reader_abandoned : ¬ ∀ (P : Type) (_ : DecidableEq P) (n : ℕ) (r : Lts.Run (Start (P := P)) step n) (k : ℕ), k ≤ n →
    Sound (r.state k) := by
  intro h
  obtain ⟨r, -, hp⟩ := Lts.exists_run_of_check step killWriter (fun _ _ _ => true)
    (fun s => s.lock.isNone && !s.pipe.empty && (s.pc false).sleepsInRead) start_fresh (by decide +kernel)
  have hs := h Bool inferInstance _ r _ le_rfl
  simp only [Bool.and_eq_true, Bool.not_eq_true', Option.isNone_iff_eq_none] at hp
  obtain ⟨⟨hl, he⟩, hpc⟩ := hp
  obtain ⟨rd, hrd⟩ := sleepsInRead_iff.1 hpc
  rw [(hs.readers hl false rd hrd).1] at he
  cases he

end Pipes

end Os132

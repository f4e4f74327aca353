import Os132.Fs.Bio

/-!
# The log (log.c)

A transaction appends the blocks it changes to the log, then writes the header with their home
sectors (the commit), copies them home and writes an empty header. `recovered` says what the disk
means: the home sectors once a committed log has been copied.
-/

namespace Os132

namespace Fs

def LOGSIZE : ℕ := 10

/-- The header block with this header stored in it: `n`, then the sectors. -/
def Header.store (h : Header) (b : Block) : Block :=
  fun j => if j = 0 then h.n else if j ≤ h.n then h.sector (j - 1) else b j

/-- The loop of `log_write`: the slot of a sector already in the log, or the next free one. -/
def Header.slot (h : Header) (sector : ℕ) : ℕ := ((List.range h.n).find? fun i => h.sector i = sector).getD h.n

def Header.log (h : Header) (i sector : ℕ) : Header :=
  ⟨h.n, fun j => if j = i then sector else h.sector j⟩

/-- `log.lh = ...` -/
def setHeader (f : Header → Header) : Op Unit := modify fun s => { s with lh := f s.lh }

/-- `log.busy = ...` -/
def setBusy (b : Bool) : Op Unit := modify fun s => { s with busy := b }

section

variable (L : Layout)

/-- The loop of `install_trans` from `tail` on, with `k` blocks to go. -/
def installFrom (tail : ℕ) : ℕ → Op Unit
  | 0 => return ()
  | k + 1 => do
    let lbuf ← bread ROOTDEV (L.start + tail + 1)
    let s ← get
    let dbuf ← bread ROOTDEV (s.lh.sector tail)
    let s ← get
    overwrite dbuf (s.buf lbuf).data
    brelse lbuf
    brelse dbuf
    installFrom (tail + 1) k

def installTrans : Op Unit := do
  let s ← get
  installFrom L 0 s.lh.n

def readHead : Op Unit := do
  let buf ← bread ROOTDEV L.start
  let s ← get
  setHeader fun h => ⟨(s.buf buf).data 0,
    fun i => if i < (s.buf buf).data 0 then (s.buf buf).data (i + 1) else h.sector i⟩
  brelse buf

def writeHead : Op Unit := do
  let buf ← bread ROOTDEV L.start
  let s ← get
  overwrite buf (s.lh.store (s.buf buf).data)
  brelse buf

/-- `log.lh.n = 0; write_head()` -/
def clearLog : Op Unit := do
  setHeader fun h => { h with n := 0 }
  writeHead L

def recoverFromLog : Op Unit := do
  readHead L
  installTrans L
  clearLog L

/-- `begin_trans` of the one process that uses the log: if it is busy, nobody will release it. -/
def beginTrans : Op Unit := do
  let s ← get
  if s.busy then throw .asleep else setBusy true

/-- The first half of `commit_trans`. -/
def commit : Op Unit := do
  let s ← get
  if 0 < s.lh.n then
    writeHead L
    installTrans L
    clearLog L
  else return ()

def commitTrans : Op Unit := do
  commit L
  setBusy false

/-- `log_write(b)` -/
def logWrite (b : ℕ) : Op Unit := do
  let s ← get
  if LOGSIZE ≤ s.lh.n ∨ L.size - 1 ≤ s.lh.n then throw (.panic "too big a transaction")
  else if ¬ s.busy then throw (.panic "write outside of trans")
  else
    let i := s.lh.slot (s.buf b).sector
    setHeader fun h => h.log i (s.buf b).sector
    let lbuf ← bread ROOTDEV (L.start + i + 1)
    overwrite lbuf (s.buf b).data
    brelse lbuf
    setHeader fun h => if i = h.n then { h with n := h.n + 1 } else h
    modify fun s => s.setBuf b { s.buf b with dirty := true }

/-- What a system call does with the buffers of home sectors. `logWrite x b` is a change of the
buffer's data to `b` followed by `log_write`; a change that is not logged shows nowhere. -/
inductive Action where
  | bread (x : {x // L.Home x})
  | logWrite (x : {x // L.Home x}) (b : Block)
  | brelse (x : {x // L.Home x})

/-- The buffer that the caller holds for sector `x`; there is no such call without one. -/
def pointer (x : ℕ) : Op ℕ := do
  let s ← get
  match s.order.find? fun i => (s.buf i).busy ∧ (s.buf i).dev = ROOTDEV ∧ (s.buf i).sector = x with
  | some i => return i
  | none => throw .misuse

variable {L} in
def Action.run : Action L → Op Unit
  | .bread x => do
    let _ ← Fs.bread ROOTDEV x
    return ()
  | .logWrite x b => do
    let i ← pointer x
    setData i b
    Fs.logWrite L i
  | .brelse x => do
    let i ← pointer x
    Fs.brelse i

variable {L} in
def runAll : List (Action L) → Op Unit
  | [] => return ()
  | a :: as => do
    a.run
    runAll as

/-- `begin_trans()`, the calls of one transaction, `commit_trans()`. -/
def transaction (tx : List (Action L)) : Op Unit := do
  beginTrans
  runAll tx
  commitTrans L

variable {L} in
def transactions : List (List (Action L)) → Op Unit
  | [] => return ()
  | tx :: txs => do
    transaction L tx
    transactions txs

/-- The system after power-on: recovery, then these transactions. -/
def system (txs : List (List (Action L))) : Op Unit := do
  recoverFromLog L
  transactions txs

end

/-! ### What a disk means -/

section recovered

variable (L : Layout)

/-- The header on the disk. -/
def headerOf (d : Disk) : Header := ⟨d L.start 0, fun i => d L.start (i + 1)⟩

/-- The first `k` blocks of the log are copied home. -/
def redo (h : Header) (d : Disk) : ℕ → Disk
  | 0 => d
  | k + 1 => (redo h d k).put (h.sector k, d (L.start + k + 1))

/-- The disk that recovery makes of `d`. -/
def recovered (d : Disk) : Disk := redo L (headerOf L d) d (headerOf L d).n

/-- Agreement outside the log region. -/
def HomeEq (d d' : Disk) : Prop := ∀ x, L.Home x → d x = d' x

/-- A header that `log.lh` can hold and that names home sectors only. -/
structure Header.Ok (h : Header) : Prop where
  le : h.n ≤ LOGSIZE
  lt : h.n < L.size
  home : ∀ i, i < h.n → L.Home (h.sector i)

variable {L} {h h' : Header} {d d' : Disk}

lemma HomeEq.refl (d : Disk) : HomeEq L d d := fun _ _ => rfl

lemma HomeEq.trans {d'' : Disk} (h : HomeEq L d d') (h' : HomeEq L d' d'') : HomeEq L d d'' :=
  fun x hx => (h x hx).trans (h' x hx)

lemma HomeEq.symm (h : HomeEq L d d') : HomeEq L d' d := fun x hx => (h x hx).symm

lemma HomeEq.put (h : HomeEq L d d') (w : ℕ × Block) : HomeEq L (d.put w) (d'.put w) := by
  intro x hx
  simp only [Disk.put]
  split
  · rfl
  · exact h x hx

lemma log_not_home {i : ℕ} (hi : i < L.size) : ¬ L.Home (L.start + i) := by
  unfold Layout.Home
  omega

lemma start_not_home : ¬ L.Home L.start := log_not_home L.size_pos

/-- Recovery of `d` and of `d'` agree at `x` if their logs do, and they do at `x` unless the log
has a block for it. -/
lemma redo_congr {k x : ℕ} (hs : ∀ i, i < k → h'.sector i = h.sector i)
    (hlog : ∀ i, i < k → d' (L.start + i + 1) = d (L.start + i + 1))
    (hx : (∀ i, i < k → h.sector i ≠ x) → d' x = d x) : redo L h' d' k x = redo L h d k x := by
  induction k with
  | zero => exact hx (fun i hi => by omega)
  | succ k ih =>
    simp only [redo, hs k (by omega), hlog k (by omega)]
    by_cases hk : x = h.sector k
    · rw [← hk, Disk.put_self, Disk.put_self]
    · rw [Disk.put_of_ne _ _ hk, Disk.put_of_ne _ _ hk]
      refine ih (fun i hi => hs i (by omega)) (fun i hi => hlog i (by omega)) (fun hne => hx fun i hi => ?_)
      by_cases hik : i = k
      · rw [hik]
        exact Ne.symm hk
      · exact hne i (by omega)

lemma redo_of_notMem {k x : ℕ} (hx : ∀ i, i < k → h.sector i ≠ x) : redo L h d k x = d x := by
  induction k with
  | zero => rfl
  | succ k ih =>
    simp only [redo]
    rw [Disk.put_of_ne _ _ (Ne.symm (hx k (by omega))), ih fun i hi => hx i (by omega)]

/-- A sector that the log names once gets its block. -/
lemma redo_of_mem {k j : ℕ} (hj : j < k) (hu : ∀ i, i < k → h.sector i = h.sector j → i = j) :
    redo L h d k (h.sector j) = d (L.start + j + 1) := by
  induction k with
  | zero => omega
  | succ k ih =>
    simp only [redo]
    by_cases hjk : j = k
    · rw [hjk, Disk.put_self]
    · rw [Disk.put_of_ne, ih (by omega) fun i hi => hu i (by omega)]
      intro he
      exact hjk (hu k (by omega) he.symm).symm

lemma recovered_of_empty (h : d L.start 0 = 0) : recovered L d = d := by
  unfold recovered headerOf
  rw [h]
  rfl

lemma ok_of_empty (h : d L.start 0 = 0) : (headerOf L d).Ok L := by
  have hn : (headerOf L d).n = 0 := h
  refine ⟨?_, ?_, ?_⟩
  · rw [hn]
    exact Nat.zero_le _
  · rw [hn]
    exact L.size_pos
  · rw [hn]
    intro i hi
    omega

variable (L) in
/-- A disk that can be recovered, and what recovery makes of it outside the log. -/
structure Means (d D : Disk) : Prop where
  ok : (headerOf L d).Ok L
  home : HomeEq L (recovered L d) D

lemma Means.of_empty {D : Disk} (h : d L.start 0 = 0) (hd : HomeEq L d D) : Means L d D :=
  ⟨ok_of_empty h, by rwa [recovered_of_empty h]⟩

end recovered

end Fs

end Os132

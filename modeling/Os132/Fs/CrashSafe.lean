import Os132.Fs.Commit

/-!
# Crash atomicity of the log

Recovery returns on every disk whose header is in order, whatever the crash that left it. Wherever
the system is cut off between two sector writes, and however often recovery itself is cut off, the
recovered disk is the result of a prefix of the transactions that contains every one whose
`commit_trans` has returned.
-/

namespace Os132

namespace Fs

open Crash

variable {L : Layout} {image D : Disk} {s : Store}

/-! ### Recovery returns -/

/-- No buffer is held or waits to be written: so it is after power-on, and after each step of
recovery. -/
structure Idle (L : Layout) (s : Store) : Prop where
  cache : Cache L s
  havedisk1 : s.havedisk1 = true
  free : ∀ i, i < NBUF → (s.buf i).busy = false
  clean : ∀ i, i < NBUF → (s.buf i).dirty = false

lemma Idle.binit (d : Disk) : Idle L (binit d true) := ⟨Cache.binit d true, rfl, fun _ _ => rfl, fun _ _ => rfl⟩

/-- `bread` returns when some buffer is neither held nor dirty and the sector's buffer is not held. -/
lemma bread_returns (hc : Cache L s) (hd : s.havedisk1 = true) {x : ℕ}
    (hfree : ∃ i, i < NBUF ∧ (s.buf i).busy = false ∧ (s.buf i).dirty = false)
    (hx : ∀ i, i < NBUF → (s.buf i).dev = ROOTDEV → (s.buf i).sector = x → (s.buf i).busy = false) :
    Returns (bread ROOTDEV x) s (Bread L s x) := by
  refine Returns.of_wp ?_ (bread_wp hc x trivial)
  have hfill : ∀ (i : ℕ) (s : Store), (s.buf i).busy = true → s.havedisk1 = true →
      ((s.buf i).dirty = true → (s.buf i).valid = true) →
      Returns (do
        let s ← get
        if (s.buf i).valid then return i
        else
          iderw i
          return i : Op ℕ) s fun _ _ => True := by
    intro i s hb hd hv
    apply returns_get_bind
    split
    · exact returns_pure trivial
    · rename_i hnv
      apply returns_bind
      unfold iderw
      apply returns_get_bind
      rw [if_neg (by simp [hb]), if_neg (by simp [hnv]), if_neg (by simp [hd])]
      split
      · exact returns_modify (returns_pure trivial)
      · exact returns_modify (returns_pure trivial)
  apply returns_bind
  unfold bget
  apply returns_get_bind
  split
  · rename_i i hf
    obtain ⟨hdev, hsec⟩ := by simpa using List.find?_some hf
    have hlt := (hc.order i).1 (List.mem_of_find?_eq_some hf)
    rw [if_neg (by simp [hx i hlt hdev hsec])]
    apply returns_bind
    refine returns_modify (returns_pure (hfill i _ (by simp) hd ?_))
    simpa using hc.dirty i hlt
  · split
    · apply returns_bind
      exact returns_modify (returns_pure (hfill _ _ (by simp) hd (by simp)))
    · rename_i hnone
      obtain ⟨i, hi, hb, hdirty⟩ := hfree
      have := List.find?_eq_none.1 hnone i (List.mem_reverse.2 ((hc.order i).2 hi))
      simp [hb, hdirty] at this

lemma overwrite_returns (hc : Cache L s) {i x : ℕ} (h : Held s i x) (hd : s.havedisk1 = true) (b : Block) :
    Returns (overwrite i b) s fun _ s' => Written L s i x b s' := by
  refine Returns.of_wp ?_ (overwrite_wp hc h b trivial trivial)
  apply returns_bind
  refine returns_modify ?_
  unfold bwrite
  apply returns_get_bind
  rw [if_neg (by simp [h.busy])]
  apply returns_bind
  refine returns_modify ?_
  unfold iderw
  apply returns_get_bind
  have hd' : ∀ b b' : Buf, ((s.setBuf i b).setBuf i b').havedisk1 = true := fun _ _ => hd
  rw [if_neg (by simp [h.busy]), if_neg (by simp), if_neg (by simp [hd']), if_pos (by simp)]
  exact returns_modify trivial

lemma brelse_returns (hc : Cache L s) {i x : ℕ} (h : Held s i x) :
    Returns (brelse i) s fun _ s' => Released L s i s' := by
  refine Returns.of_wp ?_ (brelse_wp hc h.lt trivial)
  unfold brelse
  apply returns_get_bind
  rw [if_neg (by simp [h.busy])]
  exact returns_modify trivial

lemma exists_other (i j : ℕ) : ∃ k, k < NBUF ∧ k ≠ i ∧ k ≠ j := by
  by_cases h0 : 0 ≠ i ∧ 0 ≠ j
  · exact ⟨0, by decide, h0⟩
  · by_cases h1 : 1 ≠ i ∧ 1 ≠ j
    · exact ⟨1, by decide, h1⟩
    · exact ⟨2, by decide, by omega, by omega⟩

lemma Idle.bread (h : Idle L s) (x : ℕ) : Returns (bread ROOTDEV x) s (Bread L s x) :=
  bread_returns h.cache h.havedisk1 ⟨0, by decide, h.free 0 (by decide), h.clean 0 (by decide)⟩
    fun i hi _ _ => h.free i hi

lemma Idle.after {s₁ s₂ s₃ : Store} {x i : ℕ} {b : Block} (h : Idle L s) (h₁ : Bread L s x i s₁)
    (h₂ : Written L s₁ i x b s₂) (h₃ : Released L s₂ i s₃) : Idle L s₃ := by
  refine ⟨h₃.cache, ?_, fun j hj => ?_, fun j hj => ?_⟩
  · rw [h₃.same.havedisk1, h₂.same.havedisk1, h₁.same.havedisk1, h.havedisk1]
  · by_cases hji : j = i
    · rw [hji, h₃.free]
    · rw [h₃.others j hji, h₂.others j hji, h₁.others j hji, h.free j hj]
  · by_cases hji : j = i
    · rw [hji, h₃.clean, h₂.clean]
    · rw [h₃.others j hji, h₂.others j hji, h₁.others j hji, h.clean j hj]

lemma writeHead_returns (h : Idle L s) : Returns (writeHead L) s fun _ s' => Idle L s' := by
  apply returns_bind
  refine (h.bread L.start).mono fun i s₁ h₁ => returns_get_bind ?_
  have hd₁ := h₁.same.havedisk1.trans h.havedisk1
  apply returns_bind
  refine (overwrite_returns h₁.cache h₁.own hd₁ _).mono fun _ s₂ h₂ => ?_
  exact (brelse_returns h₂.cache h₂.own).mono fun _ s₃ h₃ => h.after h₁ h₂ h₃

lemma readHead_returns (h : Idle L s) : Returns (readHead L) s fun _ s' => Idle L s' := by
  apply returns_bind
  refine (h.bread L.start).mono fun i s₁ h₁ => returns_get_bind ?_
  apply returns_bind
  refine returns_modify ?_
  have hc₁ := h₁.cache.setHeader ⟨(s₁.buf i).data 0,
    fun j => if j < (s₁.buf i).data 0 then (s₁.buf i).data (j + 1) else s₁.lh.sector j⟩
  refine (brelse_returns hc₁ (h₁.own.of_buf rfl)).mono fun _ s₂ h₂ => ?_
  refine ⟨h₂.cache, ?_, fun j hj => ?_, fun j hj => ?_⟩
  · rw [h₂.same.havedisk1]
    exact h₁.same.havedisk1.trans h.havedisk1
  · by_cases hji : j = i
    · rw [hji, h₂.free]
    · rw [h₂.others j hji]
      exact (congrArg Buf.busy (h₁.others j hji)).trans (h.free j hj)
  · by_cases hji : j = i
    · rw [hji, h₂.clean]
      have := h₁.clean
      rw [h.clean i h₁.own.lt] at this
      simpa using this
    · rw [h₂.others j hji]
      exact (congrArg Buf.dirty (h₁.others j hji)).trans (h.clean j hj)

lemma installFrom_returns {h : Header} (hok : h.Ok L) (k t : ℕ) (htk : t + k = h.n) (hs : Idle L s)
    (hlh : s.lh = h) : Returns (installFrom L t k) s fun _ s' => Idle L s' := by
  induction k generalizing s t with
  | zero => exact returns_pure hs
  | succ k ih =>
    have hlog : ¬ L.Home (L.start + t + 1) := by
      rw [Nat.add_assoc]
      exact log_not_home (by have := hok.lt; omega)
    have hhome := hok.home t (by omega)
    apply returns_bind
    refine (hs.bread _).mono fun lbuf s₁ h₁ => returns_get_bind ?_
    rw [h₁.same.lh, hlh]
    have hd₁ := h₁.same.havedisk1.trans hs.havedisk1
    -- only `lbuf` is held, for a log sector
    obtain ⟨f, hf, hfl, -⟩ := exists_other lbuf lbuf
    have hbread : Returns (bread ROOTDEV (h.sector t)) s₁ (Bread L s₁ (h.sector t)) := by
      refine bread_returns h₁.cache hd₁ ⟨f, hf, ?_, ?_⟩ fun i hi _ hsec => ?_
      · rw [h₁.others f hfl, hs.free f hf]
      · rw [h₁.others f hfl, hs.clean f hf]
      · have hil : i ≠ lbuf := by
          rintro rfl
          rw [h₁.own.sector] at hsec
          exact hlog (hsec ▸ hhome)
        rw [h₁.others i hil, hs.free i hi]
    apply returns_bind
    refine hbread.mono fun dbuf s₂ h₂ => returns_get_bind ?_
    obtain ⟨hown, hne⟩ := h₂.other h₁.own
    have hd₂ := h₂.same.havedisk1.trans hd₁
    apply returns_bind
    refine (overwrite_returns h₂.cache h₂.own hd₂ _).mono fun _ s₃ h₃ => ?_
    have hown₃ : Held s₃ lbuf _ := hown.of_buf (h₃.others lbuf hne)
    apply returns_bind
    refine (brelse_returns h₃.cache hown₃).mono fun _ s₄ h₄ => ?_
    have hown₄ : Held s₄ dbuf _ := h₃.own.of_buf (h₄.others dbuf (Ne.symm hne))
    apply returns_bind
    refine (brelse_returns h₄.cache hown₄).mono fun _ s₅ h₅ => ?_
    have hlclean : (s₂.buf lbuf).dirty = false := by
      rw [h₂.others lbuf hne]
      have := h₁.clean
      rw [hs.clean lbuf h₁.own.lt] at this
      simpa using this
    refine ih (t + 1) (by omega) ⟨h₅.cache, ?_, fun j hj => ?_, fun j hj => ?_⟩ ?_
    · rw [h₅.same.havedisk1, h₄.same.havedisk1, h₃.same.havedisk1, hd₂]
    · by_cases hjd : j = dbuf
      · rw [hjd, h₅.free]
      · rw [h₅.others j hjd]
        by_cases hjl : j = lbuf
        · rw [hjl, h₄.free]
        · rw [h₄.others j hjl, h₃.others j hjd, h₂.others j hjd, h₁.others j hjl, hs.free j hj]
    · by_cases hjd : j = dbuf
      · rw [hjd, h₅.clean, h₄.others dbuf (Ne.symm hne), h₃.clean]
      · rw [h₅.others j hjd]
        by_cases hjl : j = lbuf
        · rw [hjl, h₄.clean, h₃.others lbuf hne, hlclean]
        · rw [h₄.others j hjl, h₃.others j hjd, h₂.others j hjd, h₁.others j hjl, hs.clean j hj]
    · rw [h₅.same.lh, h₄.same.lh, h₃.same.lh, h₂.same.lh, h₁.same.lh, hlh]

/-- Recovery of a disk that means `D` returns, and leaves `D` in the home sectors. -/
lemma recoverFromLog_returns {d : Disk} (hm : Means L d D) :
    Returns (recoverFromLog L) (binit d true) fun _ s' => Clean L d D s' := by
  refine Returns.of_wp ?_ ((recoverFromLog_wp rfl (Cache.binit d true) hm).weaken fun _ _ => trivial)
  have hidle : Idle L (binit d true) := Idle.binit d
  have hread : wp (onDisk d fun _ => True) (readHead L) (binit d true) _ := readHead_wp rfl hidle.cache trivial
  obtain ⟨_, s₁, h₁, hidle₁⟩ := readHead_returns hidle
  obtain ⟨-, -, -, hn₁, hs₁⟩ := hread.choose_spec.2.2 _ _ h₁
  have hok : s₁.lh.Ok L := by
    have := hm.ok
    refine ⟨?_, ?_, fun i hi => ?_⟩
    · rw [hn₁]
      exact this.le
    · rw [hn₁]
      exact this.lt
    · rw [hs₁ i hi]
      exact this.home i (by rw [hn₁] at hi; exact hi)
  apply returns_bind
  refine ⟨_, s₁, h₁, ?_⟩
  apply returns_bind
  unfold installTrans
  apply returns_get_bind
  refine (installFrom_returns hok s₁.lh.n 0 (by omega) hidle₁ rfl).mono fun _ s₂ h₂ => ?_
  apply returns_bind
  refine returns_modify ?_
  have hidle₂ : Idle L { s₂ with lh := { s₂.lh with n := 0 } } :=
    ⟨h₂.cache.setHeader _, h₂.havedisk1, h₂.free, h₂.clean⟩
  exact (writeHead_returns hidle₂).mono fun _ _ _ => trivial

/-! ### Crashes -/

/-- The disk after power-on with `d` and a crash when recovery has made `k` writes. -/
def cutRecovery (L : Layout) (d : Disk) (k : ℕ) : Disk :=
  d.replay ((last (recoverFromLog L (binit d true))).issued.take k)

/-- From `d` by any number of recoveries that are cut off. -/
inductive Interrupted (L : Layout) (d : Disk) : Disk → Prop where
  | refl : Interrupted L d d
  | cut {d' : Disk} (h : Interrupted L d d') (k : ℕ) : Interrupted L d (cutRecovery L d' k)

lemma wp.at {crash : List (ℕ × Block) → Prop} {α : Type} {x : Op α} {post : α → Store → Prop} (h : wp crash x s post)
    (k : ℕ) (hk : s.issued.length ≤ k) : crash ((last (x s)).issued.take k) := by
  obtain ⟨ws, hw, hcr, -⟩ := h
  rw [hw, List.take_append, List.take_of_length_le hk]
  by_cases hle : k - s.issued.length ≤ ws.length
  · exact hcr _ hle
  · rw [List.take_of_length_le (by omega)]
    simpa using hcr ws.length (Nat.le_refl _)

lemma means_cutRecovery {d : Disk} (hm : Means L d D) (k : ℕ) : Means L (cutRecovery L d k) D :=
  have hw : wp (onDisk d (Means L · D)) (recoverFromLog L) (binit d true) _ :=
    recoverFromLog_wp rfl (Cache.binit d true) hm
  wp.at hw k (Nat.zero_le _)

lemma means_interrupted {d d' : Disk} (hm : Means L d D) (h : Interrupted L d d') : Means L d' D := by
  induction h with
  | refl => exact hm
  | cut _ k ih => exact means_cutRecovery ih k

/-- The home sectors after these transactions. -/
def afterAll (D : Disk) (txs : List (List (Action L))) : Disk := txs.foldl effect D

lemma transactions_wp (txs : List (List (Action L))) (hc : Clean L image D s) :
    wp (fun _ => True) (transactions txs) s fun _ _ => True := by
  induction txs generalizing D s with
  | nil => exact wp_pure trivial trivial
  | cons tx txs ih =>
    apply wp_bind
    exact Crash.wp.mono ((transaction_wp tx hc).weaken fun _ _ => trivial) fun _ _ h => ih h

lemma issued_le {α : Type} {x : Op α} {post : α → Store → Prop} {crash : List (ℕ × Block) → Prop}
    (h : wp crash x s post) : s.issued <+: (last (x s)).issued := by
  obtain ⟨ws, hw, -⟩ := h
  exact ⟨ws, hw.symm⟩

/-- Cut off after `k` writes, the disk means the result of `m` transactions, among them every one
that has returned by then. -/
lemma transactions_cut (txs : List (List (Action L))) (hc : Clean L image D s) (k : ℕ) (hk : s.issued.length ≤ k) :
    ∃ m, m ≤ txs.length ∧
      (∀ j s', j ≤ txs.length → transactions (txs.take j) s = .ok () s' → s'.issued.length ≤ k → j ≤ m) ∧
      Means L (image.replay ((last (transactions txs s)).issued.take k)) (afterAll D (txs.take m)) := by
  induction txs generalizing D s with
  | nil =>
    refine ⟨0, Nat.le_refl _, fun j _ hj _ _ => hj, ?_⟩
    have hd : image.replay (s.issued.take k) = s.disk := by
      rw [List.take_of_length_le hk, ← hc.image]
      rfl
    show Means L (image.replay (s.issued.take k)) D
    rw [hd]
    exact hc.means
  | cons tx txs ih =>
    have hw := transaction_wp tx hc
    have hcut := wp.at hw k hk
    cases hx : transaction L tx s with
    | error e s₁ =>
      have hall : ∀ txs', transactions (tx :: txs') s = .error e s₁ := fun txs' => bind_error hx
      rw [hx] at hcut
      rw [hall]
      have hret : ∀ j s', j ≤ (tx :: txs).length → transactions ((tx :: txs).take j) s = .ok () s' →
          s'.issued.length ≤ k → j ≤ 0 := by
        intro j s' hj hj' _
        cases j with
        | zero => exact Nat.le_refl _
        | succ j =>
          rw [List.take_succ_cons, hall] at hj'
          cases hj'
      rcases hcut with hcut | hcut
      · exact ⟨0, Nat.zero_le _, hret, hcut⟩
      · exact ⟨1, by simp, fun j s' hj h₁ h₂ => Nat.le_succ_of_le (hret j s' hj h₁ h₂), by simpa [afterAll] using hcut⟩
    | ok a s₁ =>
      have hc₁ := hw.choose_spec.2.2 a s₁ hx
      have hall : ∀ txs', transactions (tx :: txs') s = transactions txs' s₁ := fun txs' => bind_ok hx
      by_cases hk₁ : s₁.issued.length ≤ k
      · obtain ⟨m, hm, hret, hmeans⟩ := ih hc₁ hk₁
        refine ⟨m + 1, by simpa using hm, fun j s' hj hj' hjk => ?_, ?_⟩
        · cases j with
          | zero => omega
          | succ j =>
            rw [List.take_succ_cons, hall] at hj'
            exact Nat.succ_le_succ (hret j s' (by simpa using hj) hj' hjk)
        · rw [hall]
          simpa [afterAll] using hmeans
      · -- the crash comes before the first transaction has returned
        have hret : ∀ j s', j ≤ (tx :: txs).length → transactions ((tx :: txs).take j) s = .ok () s' →
            s'.issued.length ≤ k → j ≤ 0 := by
          intro j s' hj hj' hjk
          cases j with
          | zero => exact Nat.le_refl _
          | succ j =>
            rw [List.take_succ_cons, hall] at hj'
            have hle := (issued_le (transactions_wp (txs.take j) hc₁)).length_le
            rw [hj'] at hle
            have hle : s₁.issued.length ≤ s'.issued.length := hle
            omega
        have htake : (last (transactions (tx :: txs) s)).issued.take k = s₁.issued.take k := by
          rw [hall]
          obtain ⟨ws, hws⟩ := issued_le (transactions_wp txs hc₁)
          rw [← hws, List.take_append_of_le_length (by omega)]
        rw [hx] at hcut
        rw [htake]
        rcases hcut with hcut | hcut
        · exact ⟨0, Nat.zero_le _, hret, hcut⟩
        · exact ⟨1, by simp, fun j s' hj h₁ h₂ => Nat.le_succ_of_le (hret j s' hj h₁ h₂),
            by simpa [afterAll, last] using hcut⟩

/-- The same for the system from power-on, with recovery as its first part. -/
lemma system_cut (hok : (headerOf L image).Ok L) (txs : List (List (Action L))) (k : ℕ) :
    ∃ m, m ≤ txs.length ∧
      (∀ j s', j ≤ txs.length → system L (txs.take j) (binit image true) = .ok () s' → s'.issued.length ≤ k → j ≤ m) ∧
      Means L (image.replay ((last (system L txs (binit image true))).issued.take k))
        (afterAll (recovered L image) (txs.take m)) := by
  have hm : Means L image (recovered L image) := ⟨hok, HomeEq.refl _⟩
  have hw : wp (onDisk image (Means L · (recovered L image))) (recoverFromLog L) (binit image true) _ :=
    recoverFromLog_wp rfl (Cache.binit image true) hm
  have hcut := wp.at hw k (Nat.zero_le _)
  obtain ⟨u, s₁, h₁, hc₁⟩ := recoverFromLog_returns hm
  have hall : ∀ txs', system L txs' (binit image true) = transactions txs' s₁ := fun txs' => bind_ok h₁
  rw [hall]
  by_cases hk₁ : s₁.issued.length ≤ k
  · obtain ⟨m, hm', hret, hmeans⟩ := transactions_cut txs hc₁ k hk₁
    refine ⟨m, hm', fun j s' hj hj' hjk => ?_, hmeans⟩
    rw [hall] at hj'
    exact hret j s' hj hj' hjk
  · refine ⟨0, Nat.zero_le _, fun j s' hj hj' hjk => ?_, ?_⟩
    · rw [hall] at hj'
      have hle := (issued_le (transactions_wp (txs.take j) hc₁)).length_le
      rw [hj'] at hle
      have hle : s₁.issued.length ≤ s'.issued.length := hle
      omega
    · obtain ⟨ws, hws⟩ := issued_le (transactions_wp txs hc₁)
      rw [← hws, List.take_append_of_le_length (by omega)]
      rw [h₁] at hcut
      exact hcut

/-- Crash atomicity. The system starts on a disk with a header in order and is cut off after `k`
sector writes; recovery is cut off any number of times. Recovery then returns, and outside the log
the disk is the result of `m` transactions, which include every one whose `commit_trans` had
returned. -/
theorem crash_atomic (hok : (headerOf L image).Ok L) (txs : List (List (Action L))) (k : ℕ) {d : Disk}
    (hd : Interrupted L (image.replay ((last (system L txs (binit image true))).issued.take k)) d) :
    ∃ m, m ≤ txs.length ∧
      (∀ j s', j ≤ txs.length → system L (txs.take j) (binit image true) = .ok () s' →
        s'.issued.length ≤ k → j ≤ m) ∧
      ∃ s', recoverFromLog L (binit d true) = .ok () s' ∧
        ∀ x, L.Home x → s'.disk x = afterAll (recovered L image) (txs.take m) x := by
  obtain ⟨m, hm, hret, hmeans⟩ := system_cut hok txs k
  obtain ⟨_, s', hs', hclean⟩ := recoverFromLog_returns (means_interrupted hmeans hd)
  exact ⟨m, hm, hret, s', hs', hclean.home⟩

/-- The log of a disk laid out by mkfs. -/
def mkfsLayout : Layout := ⟨1014, 10, by omega⟩

/-- One transaction that changes one block. -/
def oneWrite : List (List (Action mkfsLayout)) :=
  [[.bread ⟨29, by decide⟩, .logWrite ⟨29, by decide⟩ (fun _ => 7), .brelse ⟨29, by decide⟩]]

/-- The crash comes after the header write. -/
theorem crash_atomic_oneWrite : ∃ m, m ≤ 1 ∧
    (∀ j s', j ≤ 1 → system mkfsLayout (oneWrite.take j) (binit (fun _ _ => 0) true) = .ok () s' →
      s'.issued.length ≤ 3 → j ≤ m) ∧
    ∃ s', recoverFromLog mkfsLayout (binit (Disk.replay (fun _ _ => 0)
        ((last (system mkfsLayout oneWrite (binit (fun _ _ => 0) true))).issued.take 3)) true) = .ok () s' ∧
      ∀ x, mkfsLayout.Home x →
        s'.disk x = afterAll (recovered mkfsLayout fun _ _ => 0) (oneWrite.take m) x :=
  crash_atomic (ok_of_empty rfl) oneWrite 3 .refl

end Fs

end Os132

import Os132.Fs.Log

/-!
# What the steps of a transaction do to the disk

`crash` is a condition on the disk after each sector write. `log_write` leaves the home sectors
alone and keeps the log a description of the transaction so far; the header write turns the disk
into one that means the transaction's result, and the installation and the second header write
keep that meaning.
-/

namespace Os132

namespace Fs

open Crash

variable {L : Layout} {image : Disk} {s : Store} {P : Disk → Prop}

/-- `P` holds of the disk after these writes. -/
abbrev onDisk (image : Disk) (P : Disk → Prop) : List (ℕ × Block) → Prop := fun ws => P (image.replay ws)

lemma onDisk_iff (hi : s.image = image) : onDisk image P s.issued ↔ P s.disk := by
  rw [onDisk, ← hi]
  rfl

lemma onDisk_snoc (hi : s.image = image) (w : ℕ × Block) : onDisk image P (s.issued ++ [w]) ↔ P (s.disk.put w) := by
  rw [onDisk, Disk.replay_snoc, ← hi]
  rfl

lemma Cache.setHeader (hc : Cache L s) (h : Header) : Cache L { s with lh := h } :=
  ⟨⟨hc.order, hc.unique, hc.dirty, hc.log⟩, hc.held⟩

/-! ### The header -/

section header

variable (hi : s.image = image) (hc : Cache L s)

include hi hc in
lemma writeHead_wp (hP : P s.disk) (hP' : P (s.disk.put (L.start, s.lh.store (s.disk L.start)))) :
    wp (onDisk image P) (writeHead L) s fun _ s' => Same s s' ∧ Cache L s' ∧
      s'.disk = s.disk.put (L.start, s.lh.store (s.disk L.start)) := by
  have hcr := (onDisk_iff hi).2 hP
  apply wp_bind
  refine (bread_wp hc L.start hcr).mono fun i s₁ h₁ => wp_get_bind ?_
  have hi₁ := h₁.same.image.trans hi
  have hcr₁ : onDisk image P s₁.issued := by rwa [h₁.issued]
  rw [h₁.same.lh, h₁.data start_not_home]
  have hw : onDisk image P (s₁.issued ++ [(L.start, s.lh.store (s.disk L.start))]) := by
    rwa [onDisk_snoc hi₁, h₁.disk]
  apply wp_bind
  refine (overwrite_wp h₁.cache h₁.own _ hcr₁ hw).mono fun _ s₂ h₂ => ?_
  have hcr₂ : onDisk image P s₂.issued := by rwa [h₂.issued]
  refine (brelse_wp h₂.cache h₁.own.lt hcr₂).mono fun _ s₃ h₃ => ?_
  exact ⟨(h₁.same.trans h₂.same).trans h₃.same, h₃.cache, by rw [h₃.disk, h₂.disk, h₁.disk]⟩

include hi hc in
lemma clearLog_wp (hP : P s.disk) (hP' : ∀ d', d' L.start 0 = 0 → HomeEq L d' s.disk → P d') :
    wp (onDisk image P) (clearLog L) s fun _ s' => s'.image = image ∧ Cache L s' ∧ s'.lh.n = 0 ∧
      s'.disk L.start 0 = 0 ∧ HomeEq L s'.disk s.disk := by
  have hcr := (onDisk_iff hi).2 hP
  have hz : (s.disk.put (L.start, Header.store ⟨0, s.lh.sector⟩ (s.disk L.start))) L.start 0 = 0 := by
    rw [Disk.put_self]
    rfl
  have hh : HomeEq L (s.disk.put (L.start, Header.store ⟨0, s.lh.sector⟩ (s.disk L.start))) s.disk := by
    intro x hx
    apply Disk.put_of_ne
    rintro rfl
    exact start_not_home hx
  apply wp_bind
  refine wp_modify hcr rfl ?_
  refine (writeHead_wp (s := { s with lh := { s.lh with n := 0 } }) hi (hc.setHeader _) hP
    (hP' _ hz hh)).mono fun _ s' h => ?_
  obtain ⟨hsame, hcache, hdisk⟩ := h
  refine ⟨hsame.image.trans hi, hcache, by rw [hsame.lh], ?_, ?_⟩
  · rw [hdisk]
    exact hz
  · rw [hdisk]
    exact hh

include hi hc in
lemma readHead_wp (hP : P s.disk) :
    wp (onDisk image P) (readHead L) s fun _ s' => s'.image = image ∧ Cache L s' ∧ s'.disk = s.disk ∧
      s'.lh.n = (headerOf L s.disk).n ∧ ∀ i, i < s'.lh.n → s'.lh.sector i = (headerOf L s.disk).sector i := by
  have hcr := (onDisk_iff hi).2 hP
  apply wp_bind
  refine (bread_wp hc L.start hcr).mono fun i s₁ h₁ => wp_get_bind ?_
  have hcr₁ : onDisk image P s₁.issued := by rwa [h₁.issued]
  rw [h₁.data start_not_home]
  apply wp_bind
  refine wp_modify hcr₁ rfl ?_
  refine (brelse_wp (s := { s₁ with lh := ⟨s.disk L.start 0,
    fun i => if i < s.disk L.start 0 then s.disk L.start (i + 1) else s₁.lh.sector i⟩ })
    (h₁.cache.setHeader _) h₁.own.lt hcr₁).mono fun _ s₂ h₂ => ?_
  refine ⟨h₂.same.image.trans (h₁.same.image.trans hi), h₂.cache, ?_, ?_, ?_⟩
  · rw [h₂.disk]
    exact h₁.disk
  · rw [h₂.same.lh]
    rfl
  · rw [h₂.same.lh]
    intro i hlt
    exact if_pos hlt

end header

/-! ### Installation -/

/-- A disk on which `t` blocks of the log of `d₁` are installed. -/
structure Partly (L : Layout) (d₁ : Disk) (h : Header) (t : ℕ) (d : Disk) : Prop where
  log : ∀ x, ¬ L.Home x → d x = d₁ x
  home : HomeEq L d (redo L h d₁ t)

/-- `h` is the header of `d`, up to slots that are not in use. -/
structure HeaderOn (L : Layout) (d : Disk) (h : Header) : Prop where
  ok : h.Ok L
  n : h.n = (headerOf L d).n
  sector : ∀ i, i < h.n → h.sector i = (headerOf L d).sector i

namespace Partly

variable {d₁ d : Disk} {h : Header} {t : ℕ}

lemma next (hp : Partly L d₁ h t d) (ht : L.Home (h.sector t)) :
    Partly L d₁ h (t + 1) (d.put (h.sector t, d₁ (L.start + t + 1))) := by
  refine ⟨fun x hx => ?_, hp.home.put _⟩
  rw [Disk.put_of_ne, hp.log x hx]
  rintro rfl
  exact hx ht

/-- A partly installed disk means the same as before the installation. -/
lemma means {D : Disk} (hp : Partly L d₁ h t d) (ho : HeaderOn L d₁ h) (ht : t ≤ h.n)
    (hD : HomeEq L (recovered L d₁) D) : Means L d D := by
  have hhead : headerOf L d = headerOf L d₁ := by
    unfold headerOf
    rw [hp.log _ start_not_home]
  refine ⟨?_, HomeEq.trans (fun x hx => ?_) hD⟩
  · rw [hhead]
    refine ⟨by rw [← ho.n]; exact ho.ok.le, by rw [← ho.n]; exact ho.ok.lt, fun i hi => ?_⟩
    rw [← ho.n] at hi
    rw [← ho.sector i hi]
    exact ho.ok.home i hi
  · unfold recovered
    rw [hhead, ← ho.n]
    refine redo_congr (fun _ _ => rfl) (fun i hi => ?_) (fun hx' => ?_)
    · apply hp.log
      rw [Nat.add_assoc]
      exact log_not_home (by have := ho.ok.lt; omega)
    · rw [hp.home x hx]
      exact redo_of_notMem fun i hi => by rw [ho.sector i (by omega)]; exact hx' i (by omega)

lemma home_eq (hp : Partly L d₁ h h.n d) (ho : HeaderOn L d₁ h) : HomeEq L d (recovered L d₁) := by
  intro x hx
  rw [hp.home x hx, recovered, ← ho.n]
  exact redo_congr (fun i hi => ho.sector i hi) (fun _ _ => rfl) (fun _ => rfl)

end Partly

lemma installFrom_wp {d₁ : Disk} {h : Header} (ho : HeaderOn L d₁ h)
    (hP : ∀ d t, t ≤ h.n → Partly L d₁ h t d → P d) (k t : ℕ) (htk : t + k = h.n)
    (hi : s.image = image) (hc : Cache L s) (hlh : s.lh = h) (hp : Partly L d₁ h t s.disk) :
    wp (onDisk image P) (installFrom L t k) s fun _ s' => s'.image = image ∧ Cache L s' ∧
      Partly L d₁ h h.n s'.disk := by
  induction k generalizing s t with
  | zero =>
    have ht : t = h.n := by omega
    subst ht
    exact wp_pure ((onDisk_iff hi).2 (hP _ _ (Nat.le_refl _) hp)) ⟨hi, hc, hp⟩
  | succ k ih =>
    have hlog : ¬ L.Home (L.start + t + 1) := by
      rw [Nat.add_assoc]
      exact log_not_home (by have := ho.ok.lt; omega)
    have hnext := hp.next (ho.ok.home t (by omega))
    have hcr := (onDisk_iff hi).2 (hP _ t (by omega) hp)
    apply wp_bind
    refine (bread_wp hc _ hcr).mono fun lbuf s₁ h₁ => wp_get_bind ?_
    have hcr₁ : onDisk image P s₁.issued := by rwa [h₁.issued]
    rw [h₁.same.lh, hlh]
    apply wp_bind
    refine (bread_wp h₁.cache _ hcr₁).mono fun dbuf s₂ h₂ => wp_get_bind ?_
    have hi₂ := (h₂.same.image.trans h₁.same.image).trans hi
    have hcr₂ : onDisk image P s₂.issued := by rwa [h₂.issued]
    obtain ⟨hown, hne⟩ := h₂.other h₁.own
    -- the log block is still in `lbuf`
    rw [h₂.others lbuf hne, h₁.data hlog, hp.log _ hlog]
    have hdisk : s₂.disk = s.disk := h₂.disk.trans h₁.disk
    have hw : onDisk image P (s₂.issued ++ [(h.sector t, d₁ (L.start + t + 1))]) := by
      rw [onDisk_snoc hi₂, hdisk]
      exact hP _ (t + 1) (by omega) hnext
    apply wp_bind
    refine (overwrite_wp h₂.cache h₂.own _ hcr₂ hw).mono fun _ s₃ h₃ => ?_
    have hcr₃ : onDisk image P s₃.issued := by rwa [h₃.issued]
    apply wp_bind
    refine (brelse_wp h₃.cache hown.lt hcr₃).mono fun _ s₄ h₄ => ?_
    have hcr₄ : onDisk image P s₄.issued := by rwa [h₄.issued]
    apply wp_bind
    refine (brelse_wp h₄.cache h₂.own.lt hcr₄).mono fun _ s₅ h₅ => ?_
    have hsame := (h₃.same.trans h₄.same).trans h₅.same
    refine ih (t + 1) (by omega) (hsame.image.trans hi₂) h₅.cache ?_ ?_
    · rw [hsame.lh, h₂.same.lh, h₁.same.lh, hlh]
    · rw [h₅.disk, h₄.disk, h₃.disk, hdisk]
      exact hnext

/-- The state between transactions: the log is empty and the home sectors hold `D`. -/
structure Clean (L : Layout) (image D : Disk) (s : Store) : Prop where
  image : s.image = image
  cache : Cache L s
  n : s.lh.n = 0
  zero : s.disk L.start 0 = 0
  home : HomeEq L s.disk D

lemma Clean.means {D : Disk} (h : Clean L image D s) : Means L s.disk D := Means.of_empty h.zero h.home

/-- Installation and the second header write keep the meaning of a disk with a committed log. -/
lemma install_clear_wp {D : Disk} (ho : HeaderOn L s.disk s.lh) (hi : s.image = image) (hc : Cache L s)
    (hD : HomeEq L (recovered L s.disk) D) :
    wp (onDisk image (Means L · D)) (do installTrans L; clearLog L) s fun _ s' => Clean L image D s' := by
  have hp : Partly L s.disk s.lh 0 s.disk := ⟨fun _ _ => rfl, HomeEq.refl _⟩
  apply wp_bind
  unfold installTrans
  apply wp_get_bind
  refine (installFrom_wp ho (fun d t ht hp' => hp'.means ho ht hD) s.lh.n 0 (by omega) hi hc rfl hp).mono ?_
  intro _ s₁ ⟨hi₁, hc₁, hp₁⟩
  have hhome := (hp₁.home_eq ho).trans hD
  refine (clearLog_wp (P := (Means L · D)) hi₁ hc₁ (hp₁.means ho (Nat.le_refl _) hD) fun d' hz hd' => ?_).mono ?_
  · exact Means.of_empty hz (hd'.trans hhome)
  · intro _ s₂ ⟨hi₂, hc₂, hn₂, hz₂, hd₂⟩
    exact ⟨hi₂, hc₂, hn₂, hz₂, hd₂.trans hhome⟩

/-- Recovery keeps the meaning of the disk at every write and ends in it. -/
lemma recoverFromLog_wp {D : Disk} (hi : s.image = image) (hc : Cache L s) (hm : Means L s.disk D) :
    wp (onDisk image (Means L · D)) (recoverFromLog L) s fun _ s' => Clean L image D s' := by
  apply wp_bind
  refine (readHead_wp hi hc hm).mono ?_
  intro _ s₁ ⟨hi₁, hc₁, hd₁, hn₁, hs₁⟩
  rw [← hd₁] at hm hn₁ hs₁
  refine install_clear_wp ⟨⟨?_, ?_, fun i hlt => ?_⟩, hn₁, hs₁⟩ hi₁ hc₁ hm.home
  · rw [hn₁]
    exact hm.ok.le
  · rw [hn₁]
    exact hm.ok.lt
  · rw [hs₁ i hlt]
    exact hm.ok.home i (by omega)

/-! ### The body of a transaction -/

/-- In a transaction that began with `D` in the home sectors and has logged changes to `D'`. -/
structure Body (L : Layout) (image D D' : Disk) (s : Store) : Prop where
  image : s.image = image
  cache : Cache L s
  zero : s.disk L.start 0 = 0
  home : HomeEq L s.disk D
  ok : s.lh.Ok L
  distinct : ∀ i j, i < s.lh.n → j < s.lh.n → s.lh.sector i = s.lh.sector j → i = j
  logged : HomeEq L (redo L s.lh s.disk s.lh.n) D'

variable {D D' : Disk}

lemma Clean.body (h : Clean L image D s) : Body L image D D s := by
  refine ⟨h.image, h.cache, h.zero, h.home, ⟨?_, ?_, ?_⟩, ?_, ?_⟩
  all_goals rw [h.n]
  · exact Nat.zero_le _
  · exact L.size_pos
  · intro i hi
    omega
  · intro i j hi
    omega
  · exact h.home

lemma Body.means (h : Body L image D D' s) : Means L s.disk D := Means.of_empty h.zero h.home

lemma Body.of_same {s' : Store} (h : Body L image D D' s) (hs : Same s s') (hc : Cache L s')
    (hd : s'.disk = s.disk) : Body L image D D' s' := by
  refine ⟨hs.image.trans h.image, hc, ?_, ?_, ?_, ?_, ?_⟩
  all_goals simp only [hs.lh, hd]
  · exact h.zero
  · exact h.home
  · exact h.ok
  · exact h.distinct
  · exact h.logged

/-- The slot of a sector: where it is in the log, or else behind the last one. -/
lemma slot_spec (h : Header) (x : ℕ) : (h.slot x < h.n ∧ h.sector (h.slot x) = x) ∨
    (h.slot x = h.n ∧ ∀ i, i < h.n → h.sector i ≠ x) := by
  unfold Header.slot
  cases hf : (List.range h.n).find? fun i => h.sector i = x with
  | none =>
    refine Or.inr ⟨rfl, fun i hi => ?_⟩
    have := List.find?_eq_none.1 hf i (List.mem_range.2 hi)
    simpa using this
  | some i =>
    have hm := List.mem_range.1 (List.mem_of_find?_eq_some hf)
    have hs := List.find?_some hf
    exact Or.inl ⟨hm, by simpa using hs⟩

/-- The header after `log_write` of a block of sector `x`. -/
def Header.grow (h : Header) (x : ℕ) : Header :=
  ⟨if h.slot x = h.n then h.n + 1 else h.n, (h.log (h.slot x) x).sector⟩

/-- A block appended to the log, or written over its older version there, is one more change. -/
lemma Body.grow {x : ℕ} {b : Block} {d : Disk} {h : Header} (hx : L.Home x) (hn : h.n < LOGSIZE) (hn' : h.n + 1 < L.size)
    (hhome : ∀ i, i < h.n → L.Home (h.sector i))
    (hdist : ∀ i j, i < h.n → j < h.n → h.sector i = h.sector j → i = j)
    (hlog : HomeEq L (redo L h d h.n) D') :
    (h.grow x).Ok L ∧
    (∀ i j, i < (h.grow x).n → j < (h.grow x).n → (h.grow x).sector i = (h.grow x).sector j → i = j) ∧
    HomeEq L (redo L (h.grow x) (d.put (L.start + h.slot x + 1, b)) (h.grow x).n) (D'.put (x, b)) := by
  have hslot : h.slot x ≤ h.n := by rcases slot_spec h x with hs | hs <;> omega
  have hself : (h.grow x).sector (h.slot x) = x := if_pos rfl
  have hother : ∀ i, i ≠ h.slot x → (h.grow x).sector i = h.sector i := fun i hi => if_neg hi
  have hle : ∀ i, i < (h.grow x).n → i < h.n ∨ i = h.slot x := by
    intro i hi
    unfold Header.grow at hi
    dsimp only at hi
    split at hi <;> omega
  have hlt : h.slot x < (h.grow x).n := by
    unfold Header.grow
    dsimp only
    split
    · omega
    · omega
  have hnlt : ∀ i, i < h.n → i < (h.grow x).n := by
    intro i hi
    unfold Header.grow
    dsimp only
    split <;> omega
  -- no other slot has the sector
  have honly : ∀ i, i < h.n → h.sector i = x → i = h.slot x := by
    intro i hi he
    rcases slot_spec h x with ⟨hs, hsx⟩ | ⟨-, hs⟩
    · exact hdist i _ hi hs (he.trans hsx.symm)
    · exact absurd he (hs i hi)
  have hdist' : ∀ i j, i < (h.grow x).n → j < (h.grow x).n →
      (h.grow x).sector i = (h.grow x).sector j → i = j := by
    intro i j hi hj hij
    by_cases hix : i = h.slot x <;> by_cases hjx : j = h.slot x
    · rw [hix, hjx]
    · rw [hix, hself, hother j hjx] at hij
      exact absurd (honly j (by have := hle j hj; omega) hij.symm) hjx
    · rw [hjx, hself, hother i hix] at hij
      exact absurd (honly i (by have := hle i hi; omega) hij) hix
    · rw [hother i hix, hother j hjx] at hij
      exact hdist i j (by have := hle i hi; omega) (by have := hle j hj; omega) hij
  have hblock : ∀ i, i < h.n → i ≠ h.slot x →
      d.put (L.start + h.slot x + 1, b) (L.start + i + 1) = d (L.start + i + 1) := by
    intro i hi hne
    apply Disk.put_of_ne
    omega
  refine ⟨⟨?_, ?_, fun i hi => ?_⟩, hdist', fun y hy => ?_⟩
  · unfold Header.grow
    dsimp only
    split <;> omega
  · unfold Header.grow
    dsimp only
    split <;> omega
  · by_cases hix : i = h.slot x
    · rw [hix, hself]
      exact hx
    · rw [hother i hix]
      exact hhome i (by have := hle i hi; omega)
  · by_cases hyx : y = x
    · -- the sector just logged
      subst hyx
      have := redo_of_mem (L := L) (h := h.grow y) (d := d.put (L.start + h.slot y + 1, b)) hlt
        (fun i hi he => hdist' i _ hi hlt he)
      rw [hself] at this
      rw [this, Disk.put_self, Disk.put_self]
    · rw [Disk.put_of_ne _ _ hyx, ← hlog y hy]
      by_cases hmem : ∃ j, j < h.n ∧ h.sector j = y
      · obtain ⟨j, hj, rfl⟩ := hmem
        have hjx : j ≠ h.slot x := by
          rintro rfl
          rcases slot_spec h x with ⟨-, hs⟩ | ⟨hs, -⟩
          · exact hyx hs
          · omega
        have h₁ := redo_of_mem (L := L) (h := h.grow x) (d := d.put (L.start + h.slot x + 1, b)) (hnlt j hj)
          (fun i hi he => hdist' i j hi (hnlt j hj) he)
        rw [hother j hjx] at h₁
        rw [h₁, hblock j hj hjx]
        exact (redo_of_mem hj fun i hi he => hdist i j hi hj he).symm
      · have hnone : ∀ i, i < h.n → h.sector i ≠ y := fun i hi he => hmem ⟨i, hi, he⟩
        rw [redo_of_notMem hnone, redo_of_notMem]
        · apply Disk.put_of_ne
          rintro rfl
          exact log_not_home (L := L) (i := h.slot x + 1) (by omega) (by rwa [← Nat.add_assoc])
        · intro i hi
          by_cases hix : i = h.slot x
          · rw [hix, hself]
            exact Ne.symm hyx
          · rw [hother i hix]
            exact hnone i (by have := hle i hi; omega)

lemma logWrite_wp {x i : ℕ} (hb : Body L image D D' s) (h : Held s i x) (hx : L.Home x) :
    wp (onDisk image (Means L · D)) (logWrite L i) s
      fun _ s' => Body L image D (D'.put (x, (s.buf i).data)) s' := by
  have hcr := (onDisk_iff (P := (Means L · D)) hb.image).2 hb.means
  unfold logWrite
  apply wp_get_bind
  split
  · exact wp_throw hcr
  · rename_i hroom
    split
    · exact wp_throw hcr
    · rw [h.sector]
      have hn : s.lh.n < LOGSIZE := by omega
      have hn' : s.lh.n + 1 < L.size := by omega
      have hslot : s.lh.slot x ≤ s.lh.n := by rcases slot_spec s.lh x with hs | hs <;> omega
      have hlog : ¬ L.Home (L.start + s.lh.slot x + 1) := by
        rw [Nat.add_assoc]
        exact log_not_home (by omega)
      obtain ⟨hok, hdist, hlogged⟩ := Body.grow (b := (s.buf i).data) hx hn hn' hb.ok.home hb.distinct hb.logged
      apply wp_bind
      refine wp_modify hcr rfl ?_
      apply wp_bind
      refine (bread_wp (s := { s with lh := s.lh.log (s.lh.slot x) x }) (hb.cache.setHeader _) _ hcr).mono
        fun lbuf s₁ h₁ => ?_
      have hi₁ := h₁.same.image.trans hb.image
      have hcr₁ : onDisk image (Means L · D) s₁.issued := by rwa [h₁.issued]
      have hd₁ : s₁.disk = s.disk := h₁.disk
      obtain ⟨hown, hne⟩ := h₁.other (h.of_buf rfl)
      -- writing into the log changes neither the header nor the home sectors
      have hzero : (s.disk.put (L.start + s.lh.slot x + 1, (s.buf i).data)) L.start 0 = 0 := by
        rw [Disk.put_of_ne _ _ (by omega)]
        exact hb.zero
      have hhome : HomeEq L (s.disk.put (L.start + s.lh.slot x + 1, (s.buf i).data)) D := by
        intro y hy
        rw [Disk.put_of_ne, hb.home y hy]
        rintro rfl
        exact hlog hy
      have hw : onDisk image (Means L · D) (s₁.issued ++ [(L.start + s.lh.slot x + 1, (s.buf i).data)]) := by
        rw [onDisk_snoc hi₁, hd₁]
        exact Means.of_empty hzero hhome
      apply wp_bind
      refine (overwrite_wp h₁.cache h₁.own _ hcr₁ hw).mono fun _ s₂ h₂ => ?_
      have hcr₂ : onDisk image (Means L · D) s₂.issued := by rwa [h₂.issued]
      apply wp_bind
      refine (brelse_wp h₂.cache h₁.own.lt hcr₂).mono fun _ s₃ h₃ => ?_
      have hcr₃ : onDisk image (Means L · D) s₃.issued := by rwa [h₃.issued]
      have hsame := (h₁.same.trans h₂.same).trans h₃.same
      have hd₃ : s₃.disk = s.disk.put (L.start + s.lh.slot x + 1, (s.buf i).data) := by
        rw [h₃.disk, h₂.disk, hd₁]
      have hlh₃ : s₃.lh = s.lh.log (s.lh.slot x) x := hsame.lh
      have hbuf₃ : s₃.buf i = s.buf i := by rw [h₃.others i hne, h₂.others i hne, h₁.others i hne]
      apply wp_bind
      refine wp_modify hcr₃ rfl ?_
      refine wp_modify hcr₃ rfl ?_
      have hgrow : (if s.lh.slot x = s₃.lh.n then { s₃.lh with n := s₃.lh.n + 1 } else s₃.lh) = s.lh.grow x := by
        rw [hlh₃]
        unfold Header.grow
        by_cases hs : s.lh.slot x = s.lh.n
        · rw [if_pos (show s.lh.slot x = (s.lh.log (s.lh.slot x) x).n from hs), if_pos hs]
          rfl
        · rw [if_neg (show ¬ s.lh.slot x = (s.lh.log (s.lh.slot x) x).n from hs), if_neg hs]
          rfl
      have hcache : Cache L (s₃.setBuf i { s₃.buf i with dirty := true }) := by
        refine ⟨Coherent.keep (b := { s₃.buf i with dirty := true }) h₃.cache.toCoherent h.lt rfl rfl ?_ ?_,
          fun j hj hb => ?_⟩
        · intro _
          show (s₃.buf i).valid = true
          rw [hbuf₃, h.valid]
        · intro hdev hl
          refine absurd ?_ hl
          show L.Home (s₃.buf i).sector
          rw [hbuf₃, h.sector]
          exact hx
        · by_cases hji : j = i
          · rw [hji, Store.setBuf_self]
            show (s₃.buf i).valid = true
            rw [hbuf₃, h.valid]
          · rw [Store.setBuf_of_ne _ _ hji] at hb ⊢
            exact h₃.cache.held j hj hb
      have hbody : ∀ s₄ : Store, s₄.image = image → Cache L s₄ → s₄.disk = s₃.disk → s₄.lh = s.lh.grow x →
          Body L image D (D'.put (x, (s.buf i).data)) s₄ := by
        intro s₄ hi₄ hc₄ hd₄ hlh₄
        rw [hd₃] at hd₄
        refine ⟨hi₄, hc₄, ?_, ?_, ?_, ?_, ?_⟩
        all_goals simp only [hd₄, hlh₄]
        · exact hzero
        · exact hhome
        · exact hok
        · exact hdist
        · exact hlogged
      exact hbody _ (hsame.image.trans hb.image) (hcache.setHeader _) rfl hgrow

/-! ### Transactions -/

/-- What an action does to the home sectors once its transaction is committed. -/
def Action.apply (d : Disk) : Action L → Disk
  | .logWrite x b => d.put (x, b)
  | _ => d

/-- The home sectors after a transaction. -/
def effect (d : Disk) (tx : List (Action L)) : Disk := tx.foldl Action.apply d

lemma pointer_wp {crash : List (ℕ × Block) → Prop} (hc : Cache L s) (x : ℕ)
    (hcr : crash s.issued) : wp crash (pointer x) s fun i s' => s' = s ∧ Held s i x := by
  unfold pointer
  apply wp_get_bind
  split
  · rename_i i hf
    obtain ⟨hbusy, hdev, hsec⟩ := by simpa using List.find?_some hf
    have hlt := (hc.order i).1 (List.mem_of_find?_eq_some hf)
    exact wp_pure hcr ⟨rfl, hlt, hbusy, hdev, hsec, hc.held i hlt hbusy⟩
  · exact wp_throw hcr

lemma run_wp (a : Action L) (hb : Body L image D D' s) :
    wp (onDisk image (Means L · D)) a.run s fun _ s' => Body L image D (a.apply D') s' := by
  have hcr := (onDisk_iff (P := (Means L · D)) hb.image).2 hb.means
  cases a with
  | bread x =>
    apply wp_bind
    refine (bread_wp hb.cache _ hcr).mono fun i s₁ h₁ => ?_
    have hb₁ := hb.of_same h₁.same h₁.cache h₁.disk
    exact wp_pure ((onDisk_iff hb₁.image).2 hb₁.means) hb₁
  | logWrite x b =>
    apply wp_bind
    refine (pointer_wp hb.cache _ hcr).mono ?_
    rintro i s ⟨rfl, h⟩
    apply wp_bind
    refine wp_modify hcr rfl ?_
    have hc₁ : Cache L (s.setBuf i { s.buf i with data := b }) := by
      refine ⟨Coherent.keep hb.cache.toCoherent h.lt rfl rfl (hb.cache.dirty i h.lt) ?_, fun j hj hbusy => ?_⟩
      · intro _ hl
        refine absurd ?_ hl
        show L.Home (s.buf i).sector
        rw [h.sector]
        exact x.2
      · by_cases hji : j = i
        · rw [hji, Store.setBuf_self]
          exact h.valid
        · rw [Store.setBuf_of_ne _ _ hji] at hbusy ⊢
          exact hb.cache.held j hj hbusy
    have hb₁ : Body L image D D' (s.setBuf i { s.buf i with data := b }) :=
      hb.of_same ⟨rfl, rfl, rfl, rfl⟩ hc₁ rfl
    have h₁ : Held (s.setBuf i { s.buf i with data := b }) i x := by
      refine ⟨h.lt, ?_, ?_, ?_, ?_⟩
      all_goals rw [Store.setBuf_self]
      · exact h.busy
      · exact h.dev
      · exact h.sector
      · exact h.valid
    have hw := logWrite_wp hb₁ h₁ x.2
    rwa [Store.setBuf_self] at hw
  | brelse x =>
    apply wp_bind
    refine (pointer_wp hb.cache _ hcr).mono ?_
    rintro i s ⟨rfl, h⟩
    refine (brelse_wp hb.cache h.lt hcr).mono fun _ s₁ h₁ => ?_
    exact hb.of_same h₁.same h₁.cache h₁.disk

lemma runAll_wp (tx : List (Action L)) (hb : Body L image D D' s) :
    wp (onDisk image (Means L · D)) (runAll tx) s fun _ s' => Body L image D (effect D' tx) s' := by
  induction tx generalizing D' s with
  | nil => exact wp_pure ((onDisk_iff hb.image).2 hb.means) hb
  | cons a tx ih =>
    apply wp_bind
    exact (run_wp a hb).mono fun _ s' hb' => ih hb'

lemma headerOn_store (h : Header) (hok : h.Ok L) (d : Disk) :
    HeaderOn L (d.put (L.start, h.store (d L.start))) h := by
  refine ⟨hok, ?_, fun i hi => ?_⟩
  · simp [headerOf, Header.store]
  · simp only [headerOf, Disk.put_self, Header.store]
    rw [if_neg (by omega), if_pos (by omega), Nat.add_sub_cancel]

/-- Up to the header write the disk means what it meant before the transaction, from then on it
means the transaction's result. -/
lemma commit_wp (hb : Body L image D D' s) :
    wp (onDisk image fun d => Means L d D ∨ Means L d D') (commit L) s fun _ s' => Clean L image D' s' := by
  have hcr := (onDisk_iff (P := fun d => Means L d D ∨ Means L d D') hb.image).2 (Or.inl hb.means)
  apply wp_get_bind
  split
  · have ho := headerOn_store s.lh hb.ok s.disk
    have hD : HomeEq L (recovered L (s.disk.put (L.start, s.lh.store (s.disk L.start)))) D' := by
      intro x hx
      rw [← hb.logged x hx, recovered, ← ho.n]
      refine redo_congr (fun i hi => (ho.sector i hi).symm) (fun i hi => ?_) (fun _ => ?_)
      · exact Disk.put_of_ne _ _ (by omega)
      · apply Disk.put_of_ne
        rintro rfl
        exact start_not_home hx
    have hp : Partly L (s.disk.put (L.start, s.lh.store (s.disk L.start))) s.lh 0
        (s.disk.put (L.start, s.lh.store (s.disk L.start))) := ⟨fun _ _ => rfl, HomeEq.refl _⟩
    apply wp_bind
    refine (writeHead_wp (P := fun d => Means L d D ∨ Means L d D') hb.image hb.cache (Or.inl hb.means)
      (Or.inr (hp.means ho (Nat.zero_le _) hD))).mono ?_
    intro _ s₁ ⟨hsame, hc₁, hd₁⟩
    rw [← hd₁, ← hsame.lh] at ho
    rw [← hd₁] at hD
    exact (install_clear_wp ho (hsame.image.trans hb.image) hc₁ hD).weaken fun _ h => Or.inr h
  · rename_i hn
    have hn : s.lh.n = 0 := by omega
    have hlogged := hb.logged
    rw [hn] at hlogged
    exact wp_pure hcr ⟨hb.image, hb.cache, hn, hb.zero, hlogged⟩

lemma setBusy_wp {crash : List (ℕ × Block) → Prop} (b : Bool) (hc : Clean L image D s) (hcr : crash s.issued) :
    wp crash (setBusy b) s fun _ s' => Clean L image D s' :=
  wp_modify hcr rfl ⟨hc.image, ⟨⟨hc.cache.order, hc.cache.unique, hc.cache.dirty, hc.cache.log⟩, hc.cache.held⟩,
    hc.n, hc.zero, hc.home⟩

/-- Wherever a transaction is cut off, the disk means what it meant before or the result. -/
lemma transaction_wp (tx : List (Action L)) (hc : Clean L image D s) :
    wp (onDisk image fun d => Means L d D ∨ Means L d (effect D tx)) (transaction L tx) s
      fun _ s' => Clean L image (effect D tx) s' := by
  have hcr := (onDisk_iff (P := fun d => Means L d D ∨ Means L d (effect D tx)) hc.image).2 (Or.inl hc.means)
  apply wp_bind
  unfold beginTrans
  apply wp_get_bind
  split
  · exact wp_throw hcr
  · refine (setBusy_wp true hc hcr).mono fun _ s₁ hc₁ => ?_
    apply wp_bind
    refine Crash.wp.mono ((runAll_wp tx hc₁.body).weaken fun _ h => Or.inl h) fun _ s₂ hb₂ => ?_
    apply wp_bind
    refine (commit_wp hb₂).mono fun _ s₃ hc₃ => ?_
    exact setBusy_wp false hc₃ ((onDisk_iff (P := fun d => Means L d D ∨ Means L d (effect D tx)) hc₃.image).2
      (Or.inr hc₃.means))

end Fs

end Os132

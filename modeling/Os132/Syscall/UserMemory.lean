import Os132.Syscall.Bounds
import Os132.Syscall.Paths

/-!
# Every system call against the process size

Each call is led through its argument checks to what it does with the pointers. Two calls can leave
`[0, sz)`: `read` with a negative count, and `wait2` in a process of less than four bytes.
-/

namespace Os132

namespace UserMemory

open Touch

variable {p : Proc} {k : Kernel} {m : Bytes} {byte : UInt32 → UInt8} {a n : UInt32}

/-- The call is a `read` of an inode file whose negative count passes `argptr`, and the file has more
bytes from the offset on than the process has from the buffer on. -/
def ReadEscapes (p : Proc) (k : Kernel) (byte : UInt32 → UInt8) : Prop :=
  ∃ f n a, argFile p byte 0 = some f ∧ f.readable ∧ f.type = .inode ∧ arg p byte 2 = some n ∧ int32 n < 0 ∧
    argPtr p byte 1 n = some a ∧ (k.locked 0).type ≠ T_DEV ∧
    ¬((k.locked 0).off > (k.locked 0).size ∨ (k.locked 0).off + n < (k.locked 0).off) ∧
    p.sz.toNat - a.toNat < min (k.locked 0).size.toNat ((k.locked 0).blocks * BSIZE) - (k.locked 0).off.toNat

/-- The call is a `wait2` that finds a zombie, in a process too small for any pointer to pass `argptr`. -/
def Wait2Escapes (p : Proc) (k : Kernel) : Prop := k.child ≠ none ∧ p.sz < 4

/-- The call is an `exec` that comes to its arguments, one of whose copies meets an address without a page table,
where the word at address 0 leads on. -/
def ExecStrays (p : Proc) (k : Kernel) (byte : UInt32 → UInt8) : Prop :=
  ∃ path uargv argv, arg p byte 0 = some path ∧ arg p byte 1 = some uargv ∧
    Gives (fetchArgv p uargv MAXARG 0) byte (some argv) ∧ k.goes ∧ Gives (namei path (k.walk 0)) byte true ∧
    Leads (word byte 0) ∧ k.image.Gaps byte 0 k.image.sz argv

/-! ### Pointers with a size -/

lemma argPtr_lt {n s : UInt32} (h : argPtr p byte n s = some a) : a < p.sz ∧ a + s ≤ p.sz := by
  obtain ⟨i, -, hi⟩ := Option.bind_eq_some_iff.1 h
  split_ifs at hi with hc
  cases hi
  rw [ge_iff_le, gt_iff_lt, not_or, UInt32.not_le, UInt32.not_lt] at hc
  exact hc

variable (hsz : p.sz < KERNBASE)
include hsz

lemma sz_lt : p.sz.toNat < 2 ^ 31 := UInt32.lt_iff_toNat_lt.1 hsz

lemma argPtr_end {i s : UInt32} (h : argPtr p byte i s = some a) (hs : s.toNat < 2 ^ 31) : a.toNat + s.toNat ≤ p.sz.toNat := by
  obtain ⟨hlt, hle⟩ := argPtr_lt h
  have := sz_lt hsz
  rw [UInt32.lt_iff_toNat_lt] at hlt
  rw [UInt32.le_iff_toNat_le, UInt32.toNat_add] at hle
  omega

/-- A copy through a pointer that `argptr` accepted for an `int` count. -/
lemma argPtr_count {i : UInt32} (h : argPtr p byte i n = some a) : a.toNat + count n ≤ p.sz.toNat := by
  have hlt := UInt32.lt_iff_toNat_lt.1 (argPtr_lt h).1
  by_cases hn : 0 ≤ int32 n
  · rw [count_le hn]
    refine argPtr_end hsz h ?_
    by_contra hge
    rw [int32, if_neg hge] at hn
    have := n.toNat_lt
    omega
  · rw [count_neg (by omega)]
    omega

omit hsz in
lemma stays_span {x : Code UInt32} {l : ℕ} {Q : UInt32 → Bytes → Prop} (h : Within (Span a l) x m Q)
    (hl : a.toNat + l ≤ p.sz.toNat) : Stays p x m :=
  h.mono (fun _ => span_lt hl) fun _ _ _ => trivial

omit hsz in
lemma stays_storeInt {v : UInt32} (h : a.toNat + 4 ≤ p.sz.toNat) :
    Within (· < p.sz) (storeInt a v) m fun _ _ => True := by
  have hl : [v.toUInt8, (v / 256).toUInt8, (v / 65536).toUInt8, (v / 16777216).toUInt8].length = 4 := rfl
  exact (within_stores (by rw [hl]; decide)).mono (fun _ => span_lt (by rw [hl]; exact h)) fun _ _ h => h

/-! ### read and write -/

omit hsz in
lemma clip_le {ip : Locked} {off : UInt32} (hoff : ¬(off > ip.size ∨ off + n < off)) :
    (clip ip off n).toNat ≤ n.toNat ∧ off.toNat + (clip ip off n).toNat < 2 ^ 32 := by
  unfold clip
  simp only [gt_iff_lt, not_or, UInt32.lt_iff_toNat_lt, UInt32.toNat_add] at hoff ⊢
  have := off.toNat_lt
  have := n.toNat_lt
  have := ip.size.toNat_lt
  split_ifs
  · rw [UInt32.toNat_sub]
    omega
  · omega

omit hsz in
lemma readi_exact {ip : Locked} {dst off : UInt32} (hdev : ip.type ≠ T_DEV) (hoff : ¬(off > ip.size ∨ off + n < off)) (b : UInt32) :
    b ∈ (readi k ip dst off n m).2.touched ↔ b ∈ m.touched ∨
      Span dst (copies ip off.toNat (clip ip off n).toNat) b := by
  rw [readi, if_neg hdev, if_neg hoff, bind_pure_mem]
  change _ ↔ b ∈ m.touched ∨ Span dst (copies ip off.toNat ((clip ip off n).toNat - (0 : UInt32).toNat)) b
  have hend : off.toNat + ((clip ip off n).toNat - (0 : UInt32).toNat) < 2 ^ 32 := (clip_le hoff).2
  exact readiLoop_exact (Nat.zero_le _) le_rfl hend b

omit hsz in
lemma readi_stop {ip : Locked} {dst off : UInt32} : ∀ e, (readi k ip dst off n m).1 = .error e → e = .panic := by
  intro e h
  unfold readi at h
  split_ifs at h
  · cases h
  · have hc : Within (Span dst (count n)) (consoleread k dst n) m fun _ _ => True := within_consoleread
    have hc := hc.2
    rw [h] at hc
    exact hc
  · cases h
  · rcases hr : readiLoop k ip (clip ip off n) (clip ip off n).toNat 0 off dst m with ⟨_ | _, m'⟩
    · rw [bind_error hr] at h
      cases h
      exact readiLoop_stop _ (congrArg Prod.fst hr)
    · rw [bind_ok hr] at h
      cases h

omit hsz in
/-- The number of bytes that `readi` copies for a negative count. -/
lemma copies_neg {ip : Locked} {off : UInt32} (hn : int32 n < 0) (hoff : ¬(off > ip.size ∨ off + n < off)) :
    copies ip off.toNat (clip ip off n).toNat =
      min ip.size.toNat (ip.blocks * BSIZE) - off.toNat := by
  have hbig : 2 ^ 31 ≤ n.toNat := by
    by_contra hlt
    rw [int32, if_pos (by omega)] at hn
    omega
  have hblk := ip.blocks_le
  have := n.toNat_lt
  have := ip.size.toNat_lt
  unfold clip copies BSIZE MAXFILE at *
  simp only [gt_iff_lt, not_or, UInt32.lt_iff_toNat_lt, UInt32.toNat_add] at hoff ⊢
  split_ifs with h
  · rw [UInt32.toNat_sub]
    omega
  · omega

lemma stays_fileread {f : File} (hp : argPtr p byte 1 n = some a)
    (hin : f.readable → f.type = .inode → int32 n < 0 → (k.locked 0).type ≠ T_DEV →
      ¬((k.locked 0).off > (k.locked 0).size ∨ (k.locked 0).off + n < (k.locked 0).off) →
      min (k.locked 0).size.toNat ((k.locked 0).blocks * BSIZE) - (k.locked 0).off.toNat ≤ p.sz.toNat - a.toNat) :
    Stays p (fileread k f a n) m := by
  have hlt := UInt32.lt_iff_toNat_lt.1 (argPtr_lt hp).1
  have hcount := argPtr_count hsz hp
  unfold fileread
  by_cases hr : (!f.readable) = true
  · rw [if_pos hr]
    exact stays_pure
  rw [if_neg hr]
  cases hf : f.type with
  | none => exact within_panic
  | pipe => exact stays_span within_piperead hcount
  | inode =>
    dsimp only
    by_cases hdev : (k.locked 0).type = T_DEV
    · unfold readi
      rw [if_pos hdev]
      split_ifs
      · exact stays_pure
      · exact stays_span within_consoleread hcount
    by_cases hoff : (k.locked 0).off > (k.locked 0).size ∨ (k.locked 0).off + n < (k.locked 0).off
    · unfold readi
      rw [if_neg hdev, if_pos hoff]
      exact stays_pure
    have hend : a.toNat + copies (k.locked 0) (k.locked 0).off.toNat (clip (k.locked 0) (k.locked 0).off n).toNat ≤ p.sz.toNat := by
      by_cases hn : int32 n < 0
      · rw [copies_neg hn hoff]
        have := hin (by simpa using hr) hf hn hdev hoff
        omega
      · have hc : copies (k.locked 0) (k.locked 0).off.toNat (clip (k.locked 0) (k.locked 0).off n).toNat ≤ n.toNat :=
          (Nat.min_le_left _ _).trans (clip_le hoff).1
        rw [count_le (by omega)] at hcount
        omega
    refine ⟨fun b hb => ((readi_exact hdev hoff b).1 hb).imp_right (span_lt hend), ?_⟩
    cases hres : (readi k (k.locked 0) a (k.locked 0).off n m).1 with
    | ok r => trivial
    | error e => exact readi_stop e hres

lemma stays_read (h : ¬ ReadEscapes p k m.byte) : Stays p (sys_read p k) m := by
  refine within_bind (within_argfd hsz) ?_
  rintro (_ | ⟨fd, f⟩) m₁ ⟨hf, hm₁⟩
  · exact stays_pure
  refine within_bind (within_argint hsz) ?_
  rintro (_ | n) m₂ ⟨hn, hm₂⟩
  · exact stays_pure
  refine within_bind (within_argptr hsz) ?_
  rintro (_ | a) m₃ ⟨ha, hm₃⟩
  · exact stays_pure
  rw [hm₁] at hn hm₂
  rw [hm₂] at ha
  refine stays_fileread hsz ha.symm fun hr ht hneg hdev hoff => ?_
  by_contra hlt
  exact h ⟨f, n, a, hf.symm, hr, ht, hn.symm, hneg, ha.symm, hdev, hoff, by omega⟩

omit hsz in
/-- The first byte past the end of the process is written. -/
lemma read_escapes (h : ReadEscapes p k m.byte) : p.sz ∈ (sys_read p k m).2.touched := by
  obtain ⟨f, n, a, hf, hr, ht, hn, hneg, ha, hdev, hoff, hlong⟩ := h
  obtain ⟨t₁, r, h₁, hr₁⟩ := argfd_eq (p := p) (m := m) (n := 0)
  rw [hf] at hr₁
  obtain ⟨⟨fd, f'⟩, rfl, hf'⟩ := Option.map_eq_some_iff.1 hr₁
  dsimp only at hf'
  subst hf'
  obtain ⟨t₂, h₂⟩ := argint_eq (p := p) (m := ⟨m.byte, t₁⟩) (n := 2)
  dsimp only at h₂
  obtain ⟨t₃, h₃⟩ := argptr_eq (p := p) ⟨m.byte, t₂⟩ n 1
  dsimp only at h₃
  rw [hn] at h₂
  rw [ha] at h₃
  rw [sys_read, bind_ok h₁]
  dsimp only
  rw [bind_ok h₂]
  dsimp only
  rw [bind_ok h₃]
  dsimp only [fileread]
  rw [hr, ht]
  refine (readi_exact hdev hoff _).2 (Or.inr ?_)
  have hlt := UInt32.lt_iff_toNat_lt.1 (argPtr_lt ha).1
  rw [copies_neg hneg hoff, Span, UInt32.toNat_sub]
  have := p.sz.toNat_lt
  have := a.toNat_lt
  omega

lemma stays_write : Stays p (sys_write p k) m := by
  refine within_bind (within_argfd hsz) ?_
  rintro (_ | ⟨fd, f⟩) m₁ -
  · exact stays_pure
  refine within_bind (within_argint hsz) ?_
  rintro (_ | n) m₂ -
  · exact stays_pure
  refine within_bind (within_argptr hsz) ?_
  rintro (_ | a) m₃ ⟨ha, -⟩
  · exact stays_pure
  exact stays_span within_filewrite (argPtr_count hsz ha.symm)

/-! ### fstat, pipe and wait2 -/

lemma stays_fstat : Stays p (sys_fstat p k) m := by
  refine within_bind (within_argfd hsz) ?_
  rintro (_ | ⟨fd, f⟩) m₁ -
  · exact stays_pure
  refine within_bind (within_argptr hsz) ?_
  rintro (_ | st) m₂ ⟨ha, -⟩
  · exact stays_pure
  have hend := argPtr_end hsz ha.symm (by decide)
  rw [show (20 : UInt32).toNat = 20 from rfl] at hend
  have hadd {i : UInt32} (hi : i.toNat ≤ 16) : (st + i).toNat = st.toNat + i.toNat := by
    rw [UInt32.toNat_add]
    have := sz_lt hsz
    omega
  have hint {i v : UInt32} {m' : Bytes} (hi : i.toNat ≤ 16) : Within (· < p.sz) (storeInt (st + i) v) m' fun _ _ => True :=
    stays_storeInt (by rw [hadd hi]; omega)
  have hshort {b c : UInt8} {i : UInt32} {m' : Bytes} (hi : i.toNat ≤ 16) :
      Within (· < p.sz) (stores [b, c] (st + i)) m' fun _ _ => True := by
    have h2 : [b, c].length < 2 ^ 32 := by simp
    exact (within_stores h2).mono (fun _ => span_lt (by rw [hadd hi]; simp; omega)) fun _ _ h => h
  have hst : Within (· < p.sz) (stati k st) m₂ fun _ _ => True := by
    unfold stati
    rw [← UInt32.add_zero st]
    simp only [UInt32.add_assoc, UInt32.zero_add]
    refine within_bind (hint (by decide)) fun _ _ _ => ?_
    refine within_bind (hint (by decide)) fun _ _ _ => ?_
    refine within_bind (hshort (by decide)) fun _ _ _ => ?_
    refine within_bind (hshort (by decide)) fun _ _ _ => ?_
    exact hint (by decide)
  dsimp only [filestat]
  split_ifs
  · exact within_bind hst fun _ _ _ => stays_pure
  · exact stays_pure

lemma stays_pipe : Stays p (sys_pipe p k) m := by
  refine within_bind (within_argptr hsz) ?_
  rintro (_ | fd) m₁ ⟨ha, -⟩
  · exact stays_pure
  have hend := argPtr_end hsz ha.symm (by decide)
  rw [show (8 : UInt32).toNat = 8 from rfl] at hend
  have hadd : (fd + 4).toNat = fd.toNat + 4 := by
    rw [UInt32.toNat_add]
    have := sz_lt hsz
    simp only [UInt32.reduceToNat]
    omega
  dsimp only
  by_cases hal : (!k.pipealloc) = true
  · rw [if_pos hal]
    exact stays_pure
  rw [if_neg hal]
  cases fdalloc p.ofile with
  | none => exact stays_pure
  | some fd0 =>
    dsimp only
    cases fdalloc fun i => if i = fd0 then some ⟨.pipe, true, false⟩ else p.ofile i with
    | none => exact stays_pure
    | some fd1 =>
      refine within_bind (stays_storeInt (by omega)) fun _ _ _ => ?_
      exact within_bind (stays_storeInt (by omega)) fun _ _ _ => stays_pure

lemma wait2_pointer {i : UInt32} (h4 : 4 ≤ p.sz) : ((argPtr p byte i 4).getD 0).toNat + 4 ≤ p.sz.toNat := by
  cases h : argPtr p byte i 4 with
  | none => exact UInt32.le_iff_toNat_le.1 h4
  | some a => exact argPtr_end hsz h (by decide)

lemma stays_wait2 (h : ¬ Wait2Escapes p k) : Stays p (sys_wait2 p k) m := by
  refine within_bind (within_argptr hsz) ?_
  rintro r m₁ ⟨rfl, hm₁⟩
  refine within_bind (within_argptr hsz) ?_
  rintro w m₂ ⟨rfl, hm₂⟩
  unfold wait2
  cases hc : k.child with
  | none => exact stays_pure
  | some z =>
    have h4 : 4 ≤ p.sz := by
      rw [← UInt32.not_lt]
      exact fun hlt => h ⟨by simp [hc], hlt⟩
    refine within_bind (stays_storeInt (wait2_pointer hsz h4)) fun _ _ _ => ?_
    exact within_bind (stays_storeInt (wait2_pointer hsz h4)) fun _ _ _ => stays_pure

omit hsz in
lemma arg_small {i : UInt32} (h4 : p.sz < 4) : arg p byte i = none := by
  have hf {addr : UInt32} : fetched p byte addr = none := by
    unfold fetched
    rw [if_pos]
    by_contra hc
    simp only [ge_iff_le, gt_iff_lt, not_or, UInt32.lt_iff_toNat_lt, UInt32.le_iff_toNat_le,
      UInt32.toNat_add, UInt32.reduceToNat] at hc h4
    omega
  exact hf

omit hsz in
lemma argPtr_small {i s : UInt32} (h4 : p.sz < 4) : argPtr p byte i s = none := by
  rw [argPtr, arg_small h4]
  rfl

omit hsz in
lemma wait2_escapes (h : Wait2Escapes p k) : 3 ∈ (sys_wait2 p k m).2.touched := by
  obtain ⟨hc, h4⟩ := h
  obtain ⟨⟨rt, wt, pid⟩, hc⟩ := Option.ne_none_iff_exists'.1 hc
  obtain ⟨t₁, h₁⟩ := argptr_eq (p := p) m 4 1
  obtain ⟨t₂, h₂⟩ := argptr_eq (p := p) ⟨m.byte, t₁⟩ 4 0
  rw [argPtr_small h4] at h₁ h₂
  rw [sys_wait2, bind_ok h₁, bind_ok h₂, wait2, hc]
  -- the bytes of `*wtime` lie over those of `*rtime`
  change (3 : UInt32) ∈ [3, 2, 1, 0, 3, 2, 1, 0] ++ t₂
  exact List.mem_append_left _ (by decide)

/-! ### Calls with paths -/

omit hsz in
lemma stays_ite {c : Prop} [Decidable c] {x y : Code UInt32} (hx : Stays p x m) (hy : Stays p y m) :
    Stays p (if c then x else y) m := by
  split_ifs
  · exact hx
  · exact hy

lemma stays_argstr {i : UInt32} {f : Option (UInt32 × UInt32) → Code UInt32} (h0 : ∀ m', Stays p (f none) m')
    (hf : ∀ s l m', Str p.sz m'.byte s → m'.byte = m.byte → Stays p (f (some (s, l))) m') :
    Stays p (argstr p i >>= f) m := by
  refine within_bind (within_argstr hsz) ?_
  rintro (_ | ⟨s, l⟩) m' ⟨hm, hs⟩
  · exact h0 m'
  · exact hf s l m' (by rw [hm]; exact (hs _ rfl).1) hm

lemma stays_argint {i : UInt32} {f : Option UInt32 → Code UInt32} (h0 : ∀ m', Stays p (f none) m')
    (hf : ∀ v m', m'.byte = m.byte → Stays p (f (some v)) m') : Stays p (argint p i >>= f) m := by
  refine within_bind (within_argint hsz) ?_
  rintro (_ | v) m' ⟨-, hm⟩
  · exact h0 m'
  · exact hf v m' hm

omit hsz in
lemma stays_found {x : Code Bool} {f : Bool → Code UInt32} {P : Bytes → Prop} (hx : Within (· < p.sz) x m fun _ m' => P m')
    (hf : ∀ b m', P m' → Stays p (f b) m') : Stays p (x >>= f) m :=
  within_bind hx fun b m' h => hf b m' h

lemma stays_open : Stays p (sys_open p k) m := by
  refine stays_argstr hsz (fun _ => stays_pure) fun s l m₁ hs _ => ?_
  refine stays_argint hsz (fun _ => stays_pure) fun v m₂ hm => ?_
  rw [← hm] at hs
  dsimp only
  split_ifs
  · exact stays_found (within_create hs) fun _ _ _ => stays_ite stays_pure stays_pure
  · exact stays_found (within_namex hs) fun _ _ _ => stays_ite stays_pure stays_pure

lemma stays_mkdir : Stays p (sys_mkdir p k) m := by
  refine stays_argstr hsz (fun _ => stays_pure) fun s l m₁ hs _ => ?_
  exact stays_found (within_create hs) fun _ _ _ => stays_ite stays_pure stays_pure

lemma stays_mknod : Stays p (sys_mknod p k) m := by
  refine stays_argstr hsz (fun _ => stays_pure) fun s l m₁ hs _ => ?_
  refine stays_argint hsz (fun _ => stays_pure) fun v m₂ hm => ?_
  refine stays_argint hsz (fun _ => stays_pure) fun v m₃ hm' => ?_
  rw [← hm, ← hm'] at hs
  exact stays_found (within_create hs) fun _ _ _ => stays_ite stays_pure stays_pure

lemma stays_chdir : Stays p (sys_chdir p k) m := by
  refine stays_argstr hsz (fun _ => stays_pure) fun s l m₁ hs _ => ?_
  exact stays_found (within_namex hs) fun _ _ _ => stays_ite stays_pure stays_pure

lemma stays_unlink : Stays p (sys_unlink p k) m := by
  refine stays_argstr hsz (fun _ => stays_pure) fun s l m₁ hs _ => ?_
  exact stays_found (within_namex hs) fun _ _ _ => stays_ite stays_pure stays_pure

lemma stays_link : Stays p (sys_link p k) m := by
  refine stays_argstr hsz (fun _ => stays_pure) fun old l m₁ hold _ => ?_
  refine stays_argstr hsz (fun _ => stays_pure) fun new l m₂ hnew hm => ?_
  rw [← hm] at hold
  refine stays_found (within_namex hold) fun _ m₃ hm₃ => ?_
  rw [← hm₃] at hnew
  refine stays_ite (stays_ite ?_ stays_pure) stays_pure
  exact stays_found (within_namex hnew) fun _ _ _ => stays_ite stays_pure stays_pure

lemma within_fetchArgv {uargv : UInt32} {left i : ℕ} :
    Within (· < p.sz) (fetchArgv p uargv left i) m fun r m' => m'.byte = m.byte ∧
      ∀ l, r = some l → ∀ s ∈ l, Str p.sz m.byte s := by
  induction left generalizing i m with
  | zero => exact within_pure ⟨rfl, by simp⟩
  | succ left ih =>
    refine within_bind (within_fetchint hsz) ?_
    rintro (_ | uarg) m₁ ⟨-, hm₁⟩
    · exact within_pure ⟨hm₁, by simp⟩
    dsimp only
    split_ifs
    · refine within_pure ⟨hm₁, fun l hl => ?_⟩
      cases hl
      simp
    · refine within_bind within_fetchstr ?_
      rintro (_ | len) m₂ ⟨hm₂, hstr⟩
      · exact within_pure ⟨hm₂.trans hm₁, by simp⟩
      refine within_bind ih ?_
      rintro rest m₃ ⟨hm₃, hrest⟩
      have hm := hm₂.trans hm₁
      refine within_pure ⟨hm₃.trans hm, fun l hl s hs => ?_⟩
      obtain ⟨l', rfl, rfl⟩ := Option.map_eq_some_iff.1 hl
      rcases List.mem_cons.1 hs with rfl | hs
      · exact hm₁ ▸ hstr len rfl
      · exact hm ▸ hrest l' rfl s hs

omit hsz in
lemma four_le {v i : UInt32} (h : arg p byte i = some v) : 4 ≤ p.sz.toNat := by
  by_contra hlt
  have h4 : p.sz < 4 := by
    simp only [UInt32.lt_iff_toNat_lt, UInt32.reduceToNat]
    omega
  rw [arg_small h4] at h
  cases h

lemma stays_exec (h : ¬ ExecStrays p k m.byte) : Stays p (sys_exec p k) m := by
  refine within_bind (within_argstr hsz) ?_
  rintro (_ | ⟨path, l⟩) m₁ ⟨hm₁, hpath⟩
  · exact stays_pure
  obtain ⟨hpath, harg⟩ := hpath _ rfl
  refine within_bind (within_argint hsz) ?_
  rintro (_ | uargv) m₂ ⟨hu, hm₂⟩
  · exact stays_pure
  rw [hm₁] at hu hm₂
  refine within_bind ((within_fetchArgv hsz).gives hm₂) ?_
  rintro (_ | argv) m₃ ⟨⟨hm₃, hargv⟩, hgives⟩
  · exact stays_pure
  have hm : m₃.byte = m.byte := hm₃.trans hm₂
  refine within_exec (four_le harg) (by rw [hm]; exact hpath) (fun s hs => ?_) fun hgoes hres hw hgaps => ?_
  · rw [hm₃]
    exact hargv argv rfl s hs
  · rw [hm] at hres hw hgaps
    exact h ⟨path, uargv, argv, harg, hu.symm, hgives, hgoes, hres, hw, hgaps⟩

/-! ### The theorem -/

/-- The calls that leave the process, by number. -/
def Escapes (p : Proc) (k : Kernel) (byte : UInt32 → UInt8) : Prop :=
  int32 p.eax = 5 ∧ ReadEscapes p k byte ∨ int32 p.eax = 22 ∧ Wait2Escapes p k

lemma stays_syscall (h : ¬ Escapes p k m.byte) (hexec : ¬ (int32 p.eax = 7 ∧ ExecStrays p k m.byte)) :
    Stays p (syscall p k) m := by
  have hint : Stays p (sys_int p k) m := stays_argint hsz (fun _ => stays_pure) fun _ _ _ => stays_pure
  have hfd : Stays p (sys_fd p k) m := by
    refine within_bind (within_argfd hsz) ?_
    rintro (_ | f) m' -
    · exact stays_pure
    · exact stays_pure
  have hcalls : ∀ x, syscalls p k (int32 p.eax) = some x → Stays p x m := by
    intro x hx
    rw [Escapes] at h
    generalize int32 p.eax = num at h hexec hx
    unfold syscalls at hx
    split at hx <;> cases hx
    case h_7 => exact stays_pipe hsz
    case h_8 => exact stays_read hsz fun hr => h (Or.inl ⟨rfl, hr⟩)
    case h_12 => exact stays_exec hsz fun hs => hexec ⟨rfl, hs⟩
    case h_13 => exact stays_fstat hsz
    case h_14 => exact stays_chdir hsz
    case h_17 => exact stays_open hsz
    case h_18 => exact stays_write hsz
    case h_19 => exact stays_mknod hsz
    case h_20 => exact stays_unlink hsz
    case h_21 => exact stays_link hsz
    case h_22 => exact stays_mkdir hsz
    case h_23 => exact stays_wait2 hsz fun hw => h (Or.inr ⟨rfl, hw⟩)
    all_goals first | exact stays_pure | exact hint | exact hfd
  unfold syscall
  cases hx : syscalls p k (int32 p.eax) with
  | none => exact stays_pure
  | some x => exact hcalls x hx

omit hsz in
lemma syscall_escapes (h : Escapes p k m.byte) : ∃ a ∈ (syscall p k m).2.touched, ¬ a < p.sz := by
  rcases h with ⟨h5, h⟩ | ⟨h22, h⟩
  · refine ⟨p.sz, ?_, UInt32.lt_irrefl _⟩
    rw [syscall, h5]
    exact read_escapes h
  · refine ⟨3, ?_, ?_⟩
    · rw [syscall, h22]
      exact wait2_escapes h
    · have := h.2
      rw [UInt32.lt_iff_toNat_lt] at this ⊢
      simp only [UInt32.reduceToNat] at this ⊢
      omega

/-- A process of one page with its stack at 0, an open file of 1000 bytes as descriptor 0. -/
def onePage : Proc where
  sz := 4096
  esp := 0
  eax := 5
  ofile := fun fd => if fd = 0 then some ⟨.inode, true, false⟩ else none

def smallFile : Kernel where
  locked := fun _ => ⟨2, 0, 1000, 0, 2, by decide⟩
  data := fun _ => 0
  input := fun _ => none
  piped := none
  room := fun _ => false
  walk := fun _ _ => (false, false)
  stat := ⟨2, 1, 2, 1, 1000⟩
  child := none
  pipealloc := false
  goes := false
  image := ⟨0, fun _ => none⟩
  value := 0

/-- The arguments of `read(0, 4086, -1)` above the stack pointer. -/
def readMinusOne : UInt32 → UInt8 := fun a =>
  if a = 8 then 0xf6 else if a = 9 then 0x0f else if 12 ≤ a ∧ a < 16 then 0xff else 0

end UserMemory

end Os132

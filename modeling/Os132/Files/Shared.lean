import Mathlib.Algebra.BigOperators.Group.Finset.Piecewise
import Os132.Lib.Run
import Os132.Files.Array

/-!
# Writers that share an open file (file.c)

Calls of `filewrite` by processes that share one `struct file`, interleaved at every access to what they
share: the log, the lock of the inode, the offset, and the blocks that `writei` writes one by one. The
offset is read and stored under the lock of the inode only. Other processes may hold the log and the lock
in between. The file is an array of bytes; `shows_written` says that `writei` makes the blocks one.
-/

namespace Os132

namespace Files

namespace Shared

open Lts

/-- Who holds a lock: nobody, a call of `filewrite`, or another process. -/
inductive Holder where
  | free
  | call (c : ℕ)
  | other
  deriving DecidableEq

/-- How far a call of `filewrite` is; `i` is its local variable, `r` the result of `writei`. -/
inductive Phase where
  | start
  /-- at the test of the loop -/
  | ready (i : ℕ)
  /-- behind `begin_trans` -/
  | begun (i : ℕ)
  /-- behind `ilock` -/
  | locked (i : ℕ)
  /-- in `writei`, which has been passed the offset `o` -/
  | called (i o : ℕ)
  /-- in the loop of `writei` with `tot = k` -/
  | writing (i o k : ℕ)
  | wrote (i : ℕ) (r : Option ℕ)
  /-- `f->off += r` has read `v` -/
  | adding (i r v : ℕ)
  /-- before `iunlock` -/
  | stored (i : ℕ) (r : Option ℕ)
  /-- before `commit_trans` -/
  | unlocked (i : ℕ) (r : Option ℕ)
  | done (v : Int)
  deriving DecidableEq

/-- What one transaction has written: the call, the offset passed to `writei`, the bytes. -/
structure Chunk where
  call : ℕ
  off : ℕ
  bytes : List UInt8

structure World where
  writable : Bool
  /-- `f->off` -/
  off : ℕ
  /-- `f->ip->size` -/
  size : ℕ
  /-- the bytes in the blocks of the file -/
  byte : Block
  log : Holder
  /-- `I_BUSY` of `f->ip` -/
  lock : Holder
  phase : ℕ → Phase
  /-- the chunks in the order in which they were written -/
  trace : List Chunk

inductive Event where
  /-- call `c` takes a step -/
  | go (c : ℕ)
  /-- another process takes the log or ends its transaction -/
  | log
  /-- another process locks or unlocks the inode -/
  | lock

def World.set (w : World) (c : ℕ) (p : Phase) : World := { w with phase := fun x => if x = c then p else w.phase x }

/-- The bytes that are written in the transaction that begins with `i`. -/
def piece (src : List UInt8) (i : ℕ) : List UInt8 := (src.drop i).take maxWrite

/-- A step of call `c`; `none` if it has to wait, is over or panics. -/
def go (src : List UInt8) (c : ℕ) (w : World) : Option World :=
  match w.phase c with
  | .start => some (w.set c (if w.writable then .ready 0 else .done (-1)))
  | .ready i =>
    if i < src.length then
      if w.log = .free then some ({ w with log := .call c }.set c (.begun i)) else none
    else some (w.set c (.done (if i = src.length then src.length else -1)))
  | .begun i => if w.lock = .free then some ({ w with lock := .call c }.set c (.locked i)) else none
  | .locked i => some (w.set c (.called i w.off))
  | .called i o =>
    if w.size < o ∨ (o + (piece src i).length) % 2 ^ 32 < o ∨ MAXFILE * BSIZE < o + (piece src i).length then
      some (w.set c (.wrote i none))
    else some (w.set c (.writing i o 0))
  | .writing i o k =>
    if k < (piece src i).length then
      let m := min ((piece src i).length - k) (BSIZE - (o + k) % BSIZE)
      some ({ w with byte := w.byte.copy (o + k) (((piece src i).drop k).take m) }.set c (.writing i o (k + m)))
    else
      some ({ w with
        size := if 0 < (piece src i).length ∧ w.size < o + (piece src i).length then o + (piece src i).length else w.size
        trace := w.trace ++ [Chunk.mk c o (piece src i)] }.set c (.wrote i (some (piece src i).length)))
  | .wrote i none => some (w.set c (.stored i none))
  | .wrote i (some r) => some (w.set c (if 0 < r then .adding i r w.off else .stored i (some r)))
  | .adding i r v => some ({ w with off := (v + r) % 2 ^ 32 }.set c (.stored i (some r)))
  | .stored i r => some ({ w with lock := .free }.set c (.unlocked i r))
  | .unlocked i none => some ({ w with log := .free }.set c (.done (if i = src.length then src.length else -1)))
  | .unlocked i (some r) =>
    -- otherwise `panic("short filewrite")`
    if r = (piece src i).length then some ({ w with log := .free }.set c (.ready (i + r))) else none
  | .done _ => none

/-- Another process takes or gives up a lock. -/
def toggle : Holder → Option Holder
  | .free => some .other
  | .other => some .free
  | .call _ => none

def step (data : ℕ → List UInt8) : Event → World → Option World
  | .go c, w => go (data c) c w
  | .log, w => (toggle w.log).map fun h => { w with log := h }
  | .lock, w => (toggle w.lock).map fun h => { w with lock := h }

/-- No call has begun. -/
def init (w : World) : Prop := w.trace = [] ∧ (∀ c, w.phase c = .start) ∧ (∀ c, w.lock ≠ .call c) ∧ ∀ c, w.log ≠ .call c

/-- The bytes of chunks, one after the other. -/
def flat (T : List Chunk) : List UInt8 := (T.map Chunk.bytes).flatten

/-- The bytes that call `c` has written, in the order in which it wrote them. -/
def mine (c : ℕ) (T : List Chunk) : List UInt8 := flat (T.filter (·.call = c))

variable {data : ℕ → List UInt8} {w w' : World} {c x i k o off₀ : ℕ} {b₀ : Block} {src : List UInt8} {T T' : List Chunk}
  {ch : Chunk} {p p₀ : Phase}

@[simp] lemma flat_append (S : List Chunk) : flat (T ++ S) = flat T ++ flat S := by
  simp [flat]

@[simp] lemma flat_singleton : flat [ch] = ch.bytes := by
  simp [flat]

lemma mine_append_self (xs : List UInt8) : mine c (T ++ [Chunk.mk c o xs]) = mine c T ++ xs := by
  unfold mine
  rw [List.filter_append, flat_append, List.filter_cons_of_pos (by simp), List.filter_nil, flat_singleton]

lemma mine_append_ne (xs : List UInt8) (h : c ≠ x) : mine x (T ++ [Chunk.mk c o xs]) = mine x T := by
  unfold mine
  rw [List.filter_append, flat_append, List.filter_cons_of_neg (by simpa using h), List.filter_nil]
  exact List.append_nil _

/-- Bytes written behind bytes. -/
lemma copy_copy (b : Block) (xs ys : List UInt8) : (b.copy o xs).copy (o + xs.length) ys = b.copy o (xs ++ ys) := by
  funext p
  unfold Block.copy
  by_cases h1 : o + xs.length ≤ p
  · rw [if_pos h1, if_pos (by omega), if_pos (by omega), List.getElem?_append_right (by omega),
      List.getElem?_eq_none (l := xs) (by omega), show p - o - xs.length = p - (o + xs.length) by omega]
    rfl
  · rw [if_neg h1]
    split_ifs with h2
    · rw [List.getElem?_append_left (by omega)]
    · rfl

/-! ### What the lock protects -/

/-- The call holds the lock of the inode. -/
def Phase.critical : Phase → Bool
  | .locked _ | .called _ _ | .writing _ _ _ | .wrote _ _ | .adding _ _ _ | .stored _ _ => true
  | _ => false

/-- The bytes that the call has written so far. -/
def Phase.progress : Phase → Option ℕ
  | .start => some 0
  | .ready i | .begun i | .locked i | .called i _ | .writing i _ _ => some i
  | .wrote i none | .stored i none | .unlocked i none => some i
  | .wrote i (some r) | .adding i r _ | .stored i (some r) | .unlocked i (some r) => some (i + r)
  | .done _ => none

/-- The chunks lie in the file from the first offset on, and the offset is behind them. -/
structure Rest (off₀ : ℕ) (b₀ : Block) (w : World) : Prop where
  off : w.off = off₀ + (flat w.trace).length
  byte : w.byte = b₀.copy off₀ (flat w.trace)

/-- What holds while a call holds the lock. -/
def Inside (off₀ : ℕ) (b₀ : Block) (src : List UInt8) (w : World) : Phase → Prop
  | .called _ o => Rest off₀ b₀ w ∧ o = w.off
  | .writing i o k => w.off = off₀ + (flat w.trace).length ∧ o = w.off ∧ k ≤ (piece src i).length ∧
    o + (piece src i).length ≤ MAXFILE * BSIZE ∧ w.byte = b₀.copy off₀ (flat w.trace ++ (piece src i).take k)
  | .wrote _ (some r) => w.off + r = off₀ + (flat w.trace).length ∧ w.off + r ≤ MAXFILE * BSIZE ∧
    w.byte = b₀.copy off₀ (flat w.trace)
  | .adding _ r v => v = w.off ∧ w.off + r = off₀ + (flat w.trace).length ∧ w.off + r ≤ MAXFILE * BSIZE ∧
    w.byte = b₀.copy off₀ (flat w.trace)
  | _ => Rest off₀ b₀ w

/-- What a call has written is the beginning of its bytes, or all of them if it has succeeded. -/
def Advanced (src : List UInt8) (c : ℕ) (T : List Chunk) (p : Phase) : Prop :=
  (∀ i, p.progress = some i → mine c T = src.take i) ∧ ∀ v, p = .done v → v ≠ -1 → v = src.length ∧ mine c T = src

structure Inv (data : ℕ → List UInt8) (off₀ : ℕ) (b₀ : Block) (w : World) : Prop where
  owner : ∀ c, (w.phase c).critical = true ↔ w.lock = .call c
  rest : (∀ c, w.lock ≠ .call c) → Rest off₀ b₀ w
  inside : ∀ c, w.lock = .call c → Inside off₀ b₀ (data c) w (w.phase c)
  advanced : ∀ c, Advanced (data c) c w.trace (w.phase c)
  adjacent : ∀ k ch, w.trace[k]? = some ch → ch.off = off₀ + (flat (w.trace.take k)).length
  calls : ∀ ch ∈ w.trace, w.phase ch.call ≠ .start

/-- The file, its offset and the chunks are the same. -/
def SameFile (w w' : World) : Prop := w'.off = w.off ∧ w'.byte = w.byte ∧ w'.trace = w.trace

lemma Rest.congr (hs : SameFile w w') (h : Rest off₀ b₀ w) : Rest off₀ b₀ w' := by
  obtain ⟨h1, h2, h3⟩ := hs
  exact ⟨by rw [h1, h3]; exact h.off, by rw [h2, h3]; exact h.byte⟩

lemma Inside.congr (hs : SameFile w w') (h : Inside off₀ b₀ src w p) : Inside off₀ b₀ src w' p := by
  have hr : Rest off₀ b₀ w → Rest off₀ b₀ w' := Rest.congr hs
  obtain ⟨h1, h2, h3⟩ := hs
  unfold Inside at h ⊢
  split at h
  · exact ⟨hr h.1, by rw [h1]; exact h.2⟩
  · rw [h1, h2, h3]
    exact h
  · rw [h1, h2, h3]
    exact h
  · rw [h1, h2, h3]
    exact h
  · exact hr h

/-- The chunks of `w'` are those of `w` and perhaps one more of call `c` behind them. -/
def Appended (off₀ c : ℕ) (w w' : World) : Prop :=
  w'.trace = w.trace ∨ ∃ xs, w'.trace = w.trace ++ [Chunk.mk c (off₀ + (flat w.trace).length) xs]

lemma Appended.mine_ne (h : Appended off₀ c w w') (hx : x ≠ c) : mine x w'.trace = mine x w.trace := by
  rcases h with h | ⟨xs, h⟩
  · rw [h]
  · rw [h, mine_append_ne xs hx.symm]

lemma Advanced.congr (ht : mine c T = mine c T') (h : Advanced src c T p) : Advanced src c T' p := by
  unfold Advanced at h ⊢
  rw [← ht]
  exact h

lemma advanced_of_progress (hp : p.progress = some i) (h : mine c T = src.take i) : Advanced src c T p := by
  constructor
  · intro j hj
    rw [hp] at hj
    cases hj
    exact h
  · rintro v rfl
    cases hp

lemma advanced_done (h : mine c T = src.take i) :
    Advanced src c T (.done (if i = src.length then src.length else -1)) := by
  constructor
  · intro j hj
    cases hj
  · intro v hv hne
    cases hv
    split_ifs at hne ⊢ with hi
    · rw [hi, List.take_length] at h
      exact ⟨rfl, h⟩
    · exact absurd rfl hne

/-- A step of call `c`. -/
lemma Inv.update (h : Inv data off₀ b₀ w) (hphase : ∀ x, w'.phase x = if x = c then p else w.phase x)
    (hcrit : p.critical = true ↔ w'.lock = .call c) (hlock : ∀ x, x ≠ c → (w'.lock = .call x ↔ w.lock = .call x))
    (hrest : (∀ x, w'.lock ≠ .call x) → Rest off₀ b₀ w') (hin : w'.lock = .call c → Inside off₀ b₀ (data c) w' p)
    (hsame : ∀ x, x ≠ c → w.lock = .call x → SameFile w w') (htrace : Appended off₀ c w w')
    (hadv : Advanced (data c) c w'.trace p) (hstart : p ≠ .start) : Inv data off₀ b₀ w' := by
  constructor
  case owner =>
    intro x
    rw [hphase x]
    split_ifs with hx
    · rw [hx]
      exact hcrit
    · rw [hlock x hx]
      exact h.owner x
  case rest => exact hrest
  case inside =>
    intro x hl
    rw [hphase x]
    split_ifs with hx
    · rw [hx] at hl ⊢
      exact hin hl
    · have hl' := (hlock x hx).1 hl
      exact (h.inside x hl').congr (hsame x hx hl')
  case advanced =>
    intro x
    rw [hphase x]
    split_ifs with hx
    · rw [hx]
      exact hadv
    · exact (h.advanced x).congr (htrace.mine_ne hx).symm
  case adjacent =>
    intro k ch hk
    rcases htrace with ht | ⟨xs, ht⟩
    · rw [ht] at hk ⊢
      exact h.adjacent k ch hk
    · rw [ht] at hk ⊢
      rcases Nat.lt_trichotomy k w.trace.length with hlt | rfl | hgt
      · rw [List.getElem?_append_left hlt] at hk
        rw [List.take_append_of_le_length hlt.le]
        exact h.adjacent k ch hk
      · rw [List.getElem?_concat_length] at hk
        cases hk
        rw [List.take_left]
      · rw [List.getElem?_eq_none (by simp; omega)] at hk
        cases hk
  case calls =>
    intro ch hch
    rw [hphase]
    split_ifs with hx
    · exact hstart
    · rcases htrace with ht | ⟨xs, ht⟩
      · rw [ht] at hch
        exact h.calls ch hch
      · rw [ht, List.mem_append, List.mem_singleton] at hch
        rcases hch with hch | rfl
        · exact h.calls ch hch
        · exact absurd rfl hx

/-- A step that leaves the file and its lock alone. -/
lemma Inv.quiet (h : Inv data off₀ b₀ w) (hp : w.phase c = p₀)
    (hphase : ∀ x, w'.phase x = if x = c then p else w.phase x) (hsame : SameFile w w')
    (hlock : w'.lock = w.lock) (hcrit : p.critical = p₀.critical)
    (hin : Inside off₀ b₀ (data c) w p₀ → Inside off₀ b₀ (data c) w p) (hadv : Advanced (data c) c w.trace p)
    (hstart : p ≠ .start) : Inv data off₀ b₀ w' := by
  rw [← hp] at hcrit hin
  apply h.update hphase _ _ _ _ (fun _ _ _ => hsame) (.inl hsame.2.2) _ hstart
  · rw [hcrit, hlock]
    exact h.owner c
  · intro x _
    rw [hlock]
  · intro hl
    rw [hlock] at hl
    exact (h.rest hl).congr hsame
  · intro hl
    rw [hlock] at hl
    exact (hin (h.inside c hl)).congr hsame
  · rw [hsame.2.2]
    exact hadv

lemma set_phase (w : World) (c : ℕ) (p : Phase) (x : ℕ) : (w.set c p).phase x = if x = c then p else w.phase x := rfl

lemma take_append_piece (src : List UInt8) (i : ℕ) : src.take i ++ piece src i = src.take (i + (piece src i).length) := by
  rw [List.take_add, piece, List.length_take, List.take_eq_take_min (i := maxWrite)]

lemma Inv.rest_of_free (h : Inv data off₀ b₀ w) (hl : w.lock = .free) : Rest off₀ b₀ w := by
  apply h.rest
  intro c hc
  rw [hl] at hc
  cases hc

/-- A step of a call that holds the lock and keeps it. -/
lemma Inv.held (h : Inv data off₀ b₀ w) (hp : w.phase c = p₀) (hc : p₀.critical = true)
    (hphase : ∀ x, w'.phase x = if x = c then p else w.phase x) (hlock : w'.lock = w.lock) (hcrit : p.critical = true)
    (hin : Inside off₀ b₀ (data c) w p₀ → Inside off₀ b₀ (data c) w' p) (htrace : Appended off₀ c w w')
    (hadv : Advanced (data c) c w'.trace p) : Inv data off₀ b₀ w' := by
  rw [← hp] at hc hin
  have hl : w.lock = .call c := (h.owner c).1 hc
  apply h.update hphase _ _ _ _ _ htrace hadv _
  · simp only [hcrit, hlock, hl]
  · intro x _
    rw [hlock]
  · intro hn
    exact absurd (hlock.trans hl) (hn c)
  · intro _
    exact hin (h.inside c hl)
  · intro x hx hl'
    rw [hl] at hl'
    cases hl'
    exact absurd rfl hx
  · rintro rfl
    cases hcrit

lemma copy_piece {xs ys : List UInt8} {m : ℕ} (h2 : w.off = off₀ + xs.length) (h3 : o = w.off) (h4 : k ≤ ys.length)
    (h6 : w.byte = b₀.copy off₀ (xs ++ ys.take k)) :
    w.byte.copy (o + k) ((ys.drop k).take m) = b₀.copy off₀ (xs ++ ys.take (k + m)) := by
  have hlen : o + k = off₀ + (xs ++ ys.take k).length := by
    rw [List.length_append, List.length_take]
    omega
  rw [h6, hlen, copy_copy, List.append_assoc, List.take_add]

/-- The invariant is preserved by every step of a call. -/
lemma Inv.go (h : Inv data off₀ b₀ w) (hs : go (data c) c w = some w') : Inv data off₀ b₀ w' := by
  have hadv := h.advanced c
  unfold Shared.go at hs
  cases hp : w.phase c with
  | start =>
    rw [hp] at hs hadv
    cases hs
    have hm : mine c w.trace = (data c).take 0 := hadv.1 0 rfl
    split_ifs
    · exact h.quiet hp (set_phase w c _) ⟨rfl, rfl, rfl⟩ rfl rfl id (advanced_of_progress rfl hm)
        (by simp)
    · refine h.quiet hp (set_phase w c _) ⟨rfl, rfl, rfl⟩ rfl rfl id ?_ (by simp)
      exact ⟨fun i hi => (by cases hi), fun v hv hne => (by cases hv; exact absurd rfl hne)⟩
  | ready i =>
    rw [hp] at hs hadv
    have hm : mine c w.trace = (data c).take i := hadv.1 i rfl
    simp only at hs
    by_cases h1 : i < (data c).length
    · rw [if_pos h1] at hs
      split_ifs at hs with h2
      cases hs
      exact h.quiet hp (set_phase _ c _) ⟨rfl, rfl, rfl⟩ rfl rfl id (advanced_of_progress rfl hm)
        (by simp)
    · rw [if_neg h1] at hs
      cases hs
      exact h.quiet hp (set_phase _ c _) ⟨rfl, rfl, rfl⟩ rfl rfl id (advanced_done hm) (by simp)
  | begun i =>
    rw [hp] at hs hadv
    have hm : mine c w.trace = (data c).take i := hadv.1 i rfl
    simp only at hs
    split_ifs at hs with h1
    cases hs
    have hr : Rest off₀ b₀ w := h.rest_of_free h1
    refine h.update (set_phase _ c _) ?_ ?_ ?_ ?_ ?_ (.inl rfl) (advanced_of_progress rfl hm) (by simp)
    · simp [Phase.critical, World.set]
    · intro x hx
      simp only [World.set, h1, Holder.call.injEq, reduceCtorEq, iff_false]
      exact hx.symm
    · intro hn
      exact absurd rfl (hn c)
    · intro _
      exact ⟨hr.off, hr.byte⟩
    · intro x _ hl
      rw [h1] at hl
      cases hl
  | locked i =>
    rw [hp] at hs hadv
    have hm : mine c w.trace = (data c).take i := hadv.1 i rfl
    cases hs
    refine h.held hp rfl (set_phase _ c _) rfl rfl ?_ (.inl rfl) (advanced_of_progress rfl hm)
    intro hr
    exact ⟨⟨hr.off, hr.byte⟩, rfl⟩
  | called i o =>
    rw [hp] at hs hadv
    have hm : mine c w.trace = (data c).take i := hadv.1 i rfl
    simp only at hs
    split_ifs at hs with h1
    · cases hs
      refine h.held hp rfl (set_phase _ c _) rfl rfl ?_ (.inl rfl) (advanced_of_progress rfl hm)
      exact fun hr => ⟨hr.1.off, hr.1.byte⟩
    · cases hs
      refine h.held hp rfl (set_phase _ c _) rfl rfl ?_ (.inl rfl) (advanced_of_progress rfl hm)
      rintro ⟨hr, ho⟩
      refine ⟨hr.off, ho, Nat.zero_le _, by omega, ?_⟩
      rw [List.take_zero, List.append_nil]
      exact hr.byte
  | writing i o k =>
    rw [hp] at hs hadv
    have hm : mine c w.trace = (data c).take i := hadv.1 i rfl
    simp only at hs
    by_cases h1 : k < (piece (data c) i).length
    · rw [if_pos h1] at hs
      cases hs
      refine h.held hp rfl (set_phase _ c _) rfl rfl ?_ (.inl rfl) (advanced_of_progress rfl hm)
      rintro ⟨h2, h3, h4, h5, h6⟩
      refine ⟨h2, h3, by omega, h5, ?_⟩
      exact copy_piece h2 h3 h4 h6
    · rw [if_neg h1] at hs
      cases hs
      have hin : Inside off₀ b₀ (data c) w (w.phase c) := h.inside c ((h.owner c).1 (by rw [hp]; rfl))
      rw [hp] at hin
      obtain ⟨h2, h3, h4, h5, h6⟩ := hin
      have hk : k = (piece (data c) i).length := by omega
      rw [hk, List.take_length] at h6
      refine h.held hp rfl (set_phase _ c _) rfl rfl (fun _ => ⟨?_, ?_, ?_⟩) (.inr ⟨piece (data c) i, ?_⟩)
        (advanced_of_progress rfl ?_)
      · simp only [World.set, flat_append, flat_singleton, List.length_append]
        omega
      · simp only [World.set]
        omega
      · simp only [World.set, flat_append, flat_singleton]
        exact h6
      · rw [← h2, ← h3]
        rfl
      · simp only [World.set]
        rw [mine_append_self, hm, take_append_piece]
  | wrote i r =>
    rw [hp] at hs hadv
    cases r with
    | none =>
      have hm : mine c w.trace = (data c).take i := hadv.1 i rfl
      cases hs
      refine h.held hp rfl (set_phase _ c _) rfl rfl ?_ (.inl rfl) (advanced_of_progress rfl hm)
      exact fun hr => ⟨hr.off, hr.byte⟩
    | some r =>
      have hm : mine c w.trace = (data c).take (i + r) := hadv.1 (i + r) rfl
      simp only at hs
      cases hs
      split_ifs with h1
      · refine h.held hp rfl (set_phase _ c _) rfl rfl ?_ (.inl rfl) (advanced_of_progress rfl hm)
        rintro ⟨h2, h3, h4⟩
        exact ⟨rfl, h2, h3, h4⟩
      · refine h.held hp rfl (set_phase _ c _) rfl rfl ?_ (.inl rfl) (advanced_of_progress rfl hm)
        rintro ⟨h2, h3, h4⟩
        have h5 : w.off = off₀ + (flat w.trace).length := by omega
        exact ⟨h5, h4⟩
  | adding i r v =>
    rw [hp] at hs hadv
    have hm : mine c w.trace = (data c).take (i + r) := hadv.1 (i + r) rfl
    cases hs
    refine h.held hp rfl (set_phase _ c _) rfl rfl ?_ (.inl rfl) (advanced_of_progress rfl hm)
    rintro ⟨h2, h3, h4, h5⟩
    constructor
    · have hmax : MAXFILE * BSIZE < 2 ^ 32 := by decide
      simp only [World.set]
      rw [h2, Nat.mod_eq_of_lt (by omega), h3]
    · exact h5
  | stored i r =>
    rw [hp] at hs hadv
    cases hs
    have hl : w.lock = .call c := (h.owner c).1 (by rw [hp]; rfl)
    have hin : Inside off₀ b₀ (data c) w (w.phase c) := h.inside c hl
    rw [hp] at hin
    have hm : Advanced (data c) c w.trace (.unlocked i r) := by
      cases r with
      | none => exact advanced_of_progress rfl (hadv.1 i rfl)
      | some r => exact advanced_of_progress rfl (hadv.1 (i + r) rfl)
    refine h.update (set_phase _ c _) ?_ ?_ ?_ ?_ ?_ (.inl rfl) hm (by simp)
    · simp [Phase.critical, World.set]
    · intro x hx
      simp only [World.set, hl, Holder.call.injEq, reduceCtorEq, false_iff]
      exact hx.symm
    · intro _
      exact ⟨hin.off, hin.byte⟩
    · intro hn
      cases hn
    · intro x hx hl'
      rw [hl] at hl'
      cases hl'
      exact absurd rfl hx
  | unlocked i r =>
    rw [hp] at hs hadv
    cases r with
    | none =>
      have hm : mine c w.trace = (data c).take i := hadv.1 i rfl
      cases hs
      exact h.quiet hp (set_phase _ c _) ⟨rfl, rfl, rfl⟩ rfl rfl id (advanced_done hm) (by simp)
    | some r =>
      have hm : mine c w.trace = (data c).take (i + r) := hadv.1 (i + r) rfl
      simp only at hs
      split_ifs at hs with h1
      cases hs
      exact h.quiet hp (set_phase _ c _) ⟨rfl, rfl, rfl⟩ rfl rfl id (advanced_of_progress rfl hm)
        (by simp)
  | done v =>
    rw [hp] at hs
    cases hs

lemma toggle_ne_call {h h' : Holder} (ht : toggle h = some h') : h ≠ .call c ∧ h' ≠ .call c := by
  cases h with
  | free =>
    cases ht
    simp
  | other =>
    cases ht
    simp
  | call x => cases ht

lemma Inv.step {l : Event} (h : Inv data off₀ b₀ w) (hs : step data l w = some w') : Inv data off₀ b₀ w' := by
  cases l with
  | go c => exact h.go hs
  | log =>
    obtain ⟨x, _, rfl⟩ := Option.map_eq_some_iff.1 hs
    have hsame : SameFile w { w with log := x } := ⟨rfl, rfl, rfl⟩
    exact ⟨h.owner, fun hl => (h.rest hl).congr hsame, fun c hl => (h.inside c hl).congr hsame, h.advanced, h.adjacent,
      h.calls⟩
  | lock =>
    obtain ⟨x, hx, rfl⟩ := Option.map_eq_some_iff.1 hs
    have hsame : SameFile w { w with lock := x } := ⟨rfl, rfl, rfl⟩
    have hr : Rest off₀ b₀ w := h.rest fun c => (toggle_ne_call hx).1
    refine ⟨fun c => ?_, fun _ => hr.congr hsame, fun c hl => absurd hl (toggle_ne_call hx).2, h.advanced, h.adjacent,
      h.calls⟩
    rw [h.owner c]
    exact iff_of_false (toggle_ne_call hx).1 (toggle_ne_call hx).2

lemma inv_init (h : init w) : Inv data w.off w.byte w := by
  obtain ⟨ht, hp, hl, -⟩ := h
  have hflat : flat w.trace = [] := by
    rw [ht]
    rfl
  have hbyte : w.byte = w.byte.copy w.off [] := by
    funext p
    simp [Block.copy]
  constructor
  case owner =>
    intro c
    rw [hp c]
    simpa [Phase.critical] using hl c
  case rest =>
    intro _
    constructor
    · rw [hflat]
      rfl
    · rw [hflat]
      exact hbyte
  case inside => exact fun c hc => absurd hc (hl c)
  case advanced =>
    intro c
    rw [hp c, ht]
    exact advanced_of_progress rfl rfl
  case adjacent =>
    intro k ch hk
    rw [ht] at hk
    cases hk
  case calls =>
    intro ch hch
    rw [ht] at hch
    cases hch

lemma inv_run {n m : ℕ} (r : Run init (Shared.step data) n) (hm : m ≤ n) :
    Inv data (r.state 0).off (r.state 0).byte (r.state m) := by
  induction m with
  | zero => exact inv_init r.starts
  | succ m ih => exact (ih (by omega)).step (r.steps m (by omega))

/-! ### What the chunks amount to -/

lemma length_flat_take_succ {k : ℕ} (hk : T[k]? = some ch) :
    (flat (T.take (k + 1))).length = (flat (T.take k)).length + ch.bytes.length := by
  rw [List.take_add_one, hk, Option.toList_some, flat_append, flat_singleton, List.length_append]

lemma length_flat_take_mono {j k : ℕ} (h : j ≤ k) : (flat (T.take j)).length ≤ (flat (T.take k)).length := by
  have ht : T.take j = (T.take k).take j := by
    rw [List.take_take, min_eq_left h]
  rw [ht]
  conv_rhs => rw [← List.take_append_drop j (T.take k), flat_append, List.length_append]
  omega

lemma Inv.pairwise (h : Inv data off₀ b₀ w) : w.trace.Pairwise fun a b => a.off + a.bytes.length ≤ b.off := by
  rw [List.pairwise_iff_getElem]
  intro i j hi hj hlt
  have h1 := h.adjacent i _ (List.getElem?_eq_getElem hi)
  have h2 := h.adjacent j _ (List.getElem?_eq_getElem hj)
  have h3 := length_flat_take_succ (List.getElem?_eq_getElem hi)
  have h4 : (flat (w.trace.take (i + 1))).length ≤ (flat (w.trace.take j)).length := length_flat_take_mono hlt
  omega

lemma getElem?_flat {k j : ℕ} (hk : T[k]? = some ch) (hj : j < ch.bytes.length) :
    (flat T)[(flat (T.take k)).length + j]? = ch.bytes[j]? := by
  have hT : flat T = flat (T.take k) ++ (ch.bytes ++ flat (T.drop (k + 1))) := by
    conv_lhs => rw [← List.take_append_drop (k + 1) T, List.take_add_one, hk, Option.toList_some]
    rw [flat_append, flat_append, flat_singleton, List.append_assoc]
  rw [hT, List.getElem?_append_right (by omega), Nat.add_sub_cancel_left, List.getElem?_append_left hj]

/-- The bytes written are those of the calls. -/
lemma length_flat {N : ℕ} (h : ∀ ch ∈ T, ch.call < N) : (flat T).length = ∑ c ∈ Finset.range N, (mine c T).length := by
  induction T using List.reverseRecOn with
  | nil => simp [flat, mine]
  | append_singleton T ch ih =>
    have hlt : ch.call < N := h ch (by simp)
    have hmine : ∀ c, (mine c (T ++ [ch])).length = (mine c T).length + if ch.call = c then ch.bytes.length else 0 := by
      intro c
      obtain ⟨x, o, xs⟩ := ch
      split_ifs with hc
      · cases hc
        rw [mine_append_self, List.length_append]
      · rw [mine_append_ne xs hc]
        rfl
    rw [flat_append, flat_singleton, List.length_append, ih fun c hc => h c (List.mem_append_left _ hc)]
    simp only [hmine, Finset.sum_add_distrib, Finset.sum_ite_eq, Finset.mem_range, hlt, if_true]

lemma go_phase_ne (hs : go src c w = some w') (hx : x ≠ c) : w'.phase x = w.phase x := by
  unfold go at hs
  split at hs <;> (try split_ifs at hs) <;> cases hs <;> simp [set_phase, hx]

/-- **Calls of `filewrite` that share an open file and all succeed**, in any order of their steps: the chunks lie in the
file one behind the other in the order in which they were written, each call wrote its bytes in their order, and the
offset has moved by as many bytes as the calls have written. -/
theorem filewrite_shared {n m N : ℕ} (r : Run init (step data) n) (hm : m ≤ n)
    (hstart : ∀ c, N ≤ c → (r.state m).phase c = .start) (hdone : ∀ c, c < N → (r.state m).phase c = .done (data c).length) :
    (∀ k ch, (r.state m).trace[k]? = some ch → ch.off = (r.state 0).off + (flat ((r.state m).trace.take k)).length) ∧
      ((r.state m).trace.Pairwise fun a b => a.off + a.bytes.length ≤ b.off) ∧
      (∀ c, c < N → mine c (r.state m).trace = data c) ∧
      (r.state m).off = (r.state 0).off + ∑ c ∈ Finset.range N, (data c).length ∧
      (∀ ch ∈ (r.state m).trace, ∀ j b, ch.bytes[j]? = some b → (r.state m).byte (ch.off + j) = b) ∧
      ∀ p, p < (r.state 0).off ∨ (r.state m).off ≤ p → (r.state m).byte p = (r.state 0).byte p := by
  have h : Inv data (r.state 0).off (r.state 0).byte (r.state m) := inv_run r hm
  have hr : Rest (r.state 0).off (r.state 0).byte (r.state m) := by
    apply h.rest
    intro c hl
    have hc := (h.owner c).2 hl
    rcases Nat.lt_or_ge c N with hlt | hge
    · rw [hdone c hlt] at hc
      cases hc
    · rw [hstart c hge] at hc
      cases hc
  have hmine : ∀ c, c < N → mine c (r.state m).trace = data c := by
    intro c hc
    have hadv := (h.advanced c).2 (data c).length (hdone c hc) (by omega)
    exact hadv.2
  refine ⟨h.adjacent, h.pairwise, hmine, ?_, ?_, ?_⟩
  · have hcall : ∀ ch ∈ (r.state m).trace, ch.call < N := by
      intro ch hch
      by_contra hge
      exact h.calls ch hch (hstart ch.call (by omega))
    rw [hr.off, length_flat hcall]
    congr 1
    apply Finset.sum_congr rfl
    intro c hc
    rw [hmine c (Finset.mem_range.1 hc)]
  · intro ch hch j b hb
    obtain ⟨k, hk⟩ := List.mem_iff_getElem?.1 hch
    have hj : j < ch.bytes.length := (List.getElem?_eq_some_iff.1 hb).1
    have hget := getElem?_flat hk hj
    have hlt : (flat ((r.state m).trace.take k)).length + j < (flat (r.state m).trace).length := by
      rw [hb] at hget
      exact (List.getElem?_eq_some_iff.1 hget).1
    rw [hr.byte, h.adjacent k ch hk, Block.copy, if_pos (by omega), Nat.add_assoc, Nat.add_sub_cancel_left, hget, hb]
    rfl
  · intro p hp
    rw [hr.off] at hp
    rw [hr.byte, Block.copy]
    split_ifs with h1
    · rw [List.getElem?_eq_none (by omega)]
      rfl
    · rfl

lemma step_phase {l : Event} (hs : step data l w = some w') (hx : l ≠ .go x) : w'.phase x = w.phase x := by
  cases l with
  | go c =>
    apply go_phase_ne hs
    rintro rfl
    exact hx rfl
  | log =>
    obtain ⟨y, _, rfl⟩ := Option.map_eq_some_iff.1 hs
    rfl
  | lock =>
    obtain ⟨y, _, rfl⟩ := Option.map_eq_some_iff.1 hs
    rfl

/-- The machine's array of bytes is what the blocks of the file hold. -/
def World.Shows (w : World) (s : State) (ip : ℕ) : Prop :=
  ∃ l, Stored s ip l ∧ w.size = l.length ∧ ∀ p b, l[p]? = some b → w.byte p = b

/-- A chunk that `writei` writes to the blocks is one that the machine copies into its array. -/
theorem shows_written {s : State} {ip : ℕ} (h : w.Shows s ip) (ho : o ≤ w.size) (hfit : o + src.length ≤ MAXFILE * BSIZE)
    (hroom : Roomy s o src.length) : ∃ s', (writei ip src o).run s = .ok (some src.length, s') ∧
      World.Shows { w with
        byte := w.byte.copy o src
        size := if 0 < src.length ∧ w.size < o + src.length then o + src.length else w.size } s' ip := by
  obtain ⟨l, hl, hsize, hbyte⟩ := h
  rw [hsize] at ho ⊢
  obtain ⟨s', hrun, hs', -⟩ := hl.writei ho hfit hroom
  have htake : (l.take o).length = o := by rw [List.length_take, min_eq_left ho]
  refine ⟨s', hrun, _, hs', ?_, fun p b hp => ?_⟩
  · simp only [List.length_append, List.length_drop, htake]
    split_ifs <;> omega
  · simp only [Block.copy]
    by_cases h1 : p < o
    · rw [if_neg (by omega)]
      rw [List.append_assoc, List.getElem?_append_left (by omega), List.getElem?_take_of_lt h1] at hp
      exact hbyte p b hp
    · rw [if_pos (by omega)]
      by_cases h2 : p - o < src.length
      · rw [List.getElem?_append_left (by rw [List.length_append]; omega), List.getElem?_append_right (by omega), htake] at hp
        rw [hp]
        rfl
      · rw [List.getElem?_eq_none (by omega)]
        rw [List.getElem?_append_right (by rw [List.length_append]; omega), List.getElem?_drop, List.length_append, htake] at hp
        refine hbyte p b ?_
        rw [← hp]
        congr 1
        omega

/-- Two writers, of which the first needs two transactions, and a file that is empty. -/
def twoWriters (c : ℕ) : List UInt8 := if c = 0 then List.replicate 1540 1 else [3]

def emptyFile : World where
  writable := true
  off := 0
  size := 0
  byte := fun _ => 0
  log := .free
  lock := .free
  phase := fun _ => .start
  trace := []

/-- The second call writes between the two transactions of the first; others use the log and the inode
in between. -/
def overtaken : List Event :=
  [.go 0, .go 1, .log, .log] ++ List.replicate 12 (.go 0) ++ List.replicate 11 (.go 1) ++ [.lock, .lock] ++
    List.replicate 11 (.go 0)

def Event.below (N : ℕ) : Event → Bool
  | .go c => c < N
  | _ => true

instance : Inhabited Event := ⟨.log⟩

theorem filewrite_shared_between : ∃ r : Run init (step twoWriters) overtaken.length,
    (r.state overtaken.length).off = (r.state 0).off + ∑ c ∈ Finset.range 2, (twoWriters c).length ∧
      ∀ c, c < 2 → mine c (r.state overtaken.length).trace = twoWriters c := by
  have h0 : init emptyFile := ⟨rfl, fun _ => rfl, fun _ => Holder.noConfusion, fun _ => Holder.noConfusion⟩
  obtain ⟨r, hq, hp⟩ := Lts.exists_run_of_check (step twoWriters) overtaken (fun _ _ l => l.below 2)
    (fun w => decide (w.phase 0 = .done 1540) && decide (w.phase 1 = .done 1)) h0 (by decide +kernel)
  simp only [Bool.and_eq_true, decide_eq_true_eq] at hp
  have hstart : ∀ k, k ≤ overtaken.length → ∀ c, 2 ≤ c → (r.state k).phase c = .start := by
    have hmeets : r.Meets fun _ l => l.below 2 = true := hq
    apply r.invariant_of (P := fun w => ∀ c, 2 ≤ c → w.phase c = .start) hmeets fun _ hw c _ => hw.2.1 c
    intro w l w' hw hl hs c hc
    rw [step_phase hs, hw c hc]
    rintro rfl
    simp only [Event.below, decide_eq_true_eq] at hl
    omega
  have hdone : ∀ c, c < 2 → (r.state overtaken.length).phase c = .done (twoWriters c).length := by
    intro c hc
    have hc' : c = 0 ∨ c = 1 := by omega
    rcases hc' with rfl | rfl
    · rw [hp.1, twoWriters, if_pos rfl, List.length_replicate]
      rfl
    · exact hp.2
  have h := filewrite_shared r le_rfl (hstart _ le_rfl) hdone
  exact ⟨r, h.2.2.2.1, h.2.2.1⟩

end Shared

end Files

end Os132

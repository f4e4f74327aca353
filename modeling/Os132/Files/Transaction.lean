import Os132.Files.Calls

/-!
# Every `log_write` is made inside its own transaction

The mode of a process says whether it is between its own `begin_trans` and `commit_trans`, and whether its call is
one of those that put inodes and read content outside a transaction: the calls that walk a path before they begin
one, and `read`, `chdir`, `exec` and `exit`. The other calls take the test of `iput` and the look-up of `bmap` in
their own transaction only. In a call of the first kind two actions must not go the wrong way: the test of `iput`
must not find the last reference to an inode without links, and `bmap` must not find a block missing. In an
interleaving in which they do not, whatever else the processes do, `log_write` is called inside the caller's own
transaction only, and one process at most is inside one.
-/

namespace Os132

namespace Files

open Prog

/-- Whether a process is inside its own transaction, and whether its call puts inodes and reads outside one. -/
structure Mode where
  inside : Bool
  loose : Bool

/-- The discipline of transactions. -/
def trans : Discipline State Label Mode where
  ok m
    | .begin => m.inside = false
    | .commit => m.inside = true
    | .logWrite _ => m.inside = true
    | .drop _ | .addr _ _ | .indirect _ _ => m.inside = true ∨ m.loose = true
    | .other => True
  does
    | .begin, s, s' => s.busy = false ∧ s'.busy = true
    | .commit, _, s' => s'.busy = false
    | _, s, s' => s'.busy = s.busy
  may m
    | .drop ip, s => m.inside = false → m.loose = true → ¬ lastLink (s.icache ip)
    | .addr ip i, s => m.inside = false → m.loose = true → (s.icache ip).d.addrs i ≠ 0
    | .indirect b i, s => m.inside = false → m.loose = true → (s.data b).word i ≠ 0
    | _, _ => True
  next
    | .begin, m => { m with inside := true }
    | .commit, m => { m with inside := false }
    | _, m => m

/-- Code that begins and ends in a transaction, or outside one. -/
abbrev Stays {α : Type} (loose m : Bool) (p : Code α) : Prop := Obeys trans p ⟨m, loose⟩ fun _ m' => m' = ⟨m, loose⟩

/-- The test of `iput` and the look-up of `bmap` are allowed. -/
class Clear (loose m : Bool) : Prop where
  clear : m = true ∨ loose = true

instance {loose : Bool} : Clear loose true := ⟨Or.inl rfl⟩

instance {m : Bool} : Clear true m := ⟨Or.inr rfl⟩

section stays

variable {α β : Type} {loose m : Bool}

lemma stays_pure {a : α} : Stays loose m (pure a) := obeys_pure rfl

lemma stays_bind {p : Code α} {g : α → Code β} (hp : Stays loose m p) (hg : ∀ a, Stays loose m (g a)) :
    Stays loose m (p >>= g) :=
  obeys_bind (hp.mono fun a m' h => by rw [h]; exact hg a)

lemma stays_other {f : State → Except Stop (α × State)} (h : ∀ s b s', f s = .ok (b, s') → s'.busy = s.busy) :
    Stays loose m (Prog.act .other f) :=
  obeys_act trivial h fun _ _ _ _ _ => rfl

lemma stays_look (f : State → α) : Stays loose m (look f) := stays_other fun s b s' h => by cases h; rfl

lemma stays_change {f : State → State} (h : ∀ s, (f s).busy = s.busy) : Stays loose m (change f) :=
  stays_other fun s b s' hs => by cases hs; exact h s

lemma stays_panic (msg : String) : Stays loose m (panic msg : Code α) := stays_other fun s b s' h => by cases h

lemma stays_bread (x : ℕ) : Stays loose m (bread x) := by
  refine stays_other fun s b s' h => ?_
  split at h
  · cases h
  · cases h
    rfl

lemma stays_brelse (x : ℕ) : Stays loose m (brelse x) := stays_change fun _ => rfl

lemma stays_inode (ip : ℕ) : Stays loose m (inode ip) := stays_look _

lemma stays_setInode (ip : ℕ) (f : Dinode → Dinode) : Stays loose m (setInode ip f) := stays_change fun _ => rfl

lemma stays_logWrite (x : ℕ) : Stays loose true (logWrite x) := by
  refine obeys_act rfl (fun s b s' h => ?_) (fun _ _ _ _ _ => rfl)
  split at h
  · cases h
  · split at h
    · cases h
    · cases h
      show State.busy (if x ∈ s.logged then s else _) = s.busy
      split <;> rfl

/-! ### Blocks and inodes -/

lemma stays_readsb : Stays loose m readsb :=
  stays_bind (stays_bread 1) fun _ => stays_bind (stays_look _) fun _ => stays_bind (stays_brelse 1) fun _ => stays_pure

lemma stays_bzero (b : ℕ) : Stays loose true (bzero b) :=
  stays_bind (stays_bread b) fun _ => stays_bind (stays_change fun _ => rfl) fun _ =>
    stays_bind (stays_logWrite b) fun _ => stays_brelse b

lemma stays_ballocFrom (sb : Super) (b k : ℕ) : Stays loose true (ballocFrom sb b k) := by
  induction k generalizing b with
  | zero => exact stays_panic _
  | succ k ih =>
    refine stays_bind (stays_bread _) fun _ => stays_bind (stays_look _) fun bit => ?_
    split
    · exact stays_bind (stays_change fun _ => rfl) fun _ => stays_bind (stays_logWrite _) fun _ =>
        stays_bind (stays_brelse _) fun _ => stays_bind (stays_bzero _) fun _ => stays_pure
    · exact stays_bind (stays_brelse _) fun _ => ih _

lemma stays_balloc : Stays loose true balloc := stays_bind stays_readsb fun sb => stays_ballocFrom sb 0 _

lemma stays_bfree (b : ℕ) : Stays loose true (bfree b) := by
  refine stays_bind stays_readsb fun sb => stays_bind (stays_bread _) fun _ => stays_bind (stays_look _) fun used => ?_
  split
  · exact stays_panic _
  · exact stays_bind (stays_change fun _ => rfl) fun _ => stays_bind (stays_logWrite _) fun _ => stays_brelse _

lemma stays_iget (inum : ℕ) : Stays loose m (iget inum) := by
  refine stays_other fun s b s' h => ?_
  split at h
  · cases h
    rfl
  · split at h
    · cases h
      rfl
    · cases h

lemma stays_idup (ip : ℕ) : Stays loose m (idup ip) := stays_bind (stays_change fun _ => rfl) fun _ => stays_pure

lemma stays_iallocFrom (type : Int16) (inum k : ℕ) : Stays loose true (iallocFrom type inum k) := by
  induction k generalizing inum with
  | zero => exact stays_panic _
  | succ k ih =>
    refine stays_bind (stays_bread _) fun _ => stays_bind (stays_look _) fun dip => ?_
    split
    · exact stays_bind (stays_change fun _ => rfl) fun _ => stays_bind (stays_logWrite _) fun _ =>
        stays_bind (stays_brelse _) fun _ => stays_iget _
    · exact stays_bind (stays_brelse _) fun _ => ih _

lemma stays_ialloc (type : Int16) : Stays loose true (ialloc type) :=
  stays_bind stays_readsb fun _ => stays_iallocFrom type 1 _

lemma stays_iupdate (ip : ℕ) : Stays loose true (iupdate ip) :=
  stays_bind (stays_look _) fun _ => stays_bind (stays_bread _) fun _ => stays_bind (stays_change fun _ => rfl) fun _ =>
    stays_bind (stays_logWrite _) fun _ => stays_brelse _

lemma stays_ilock (ip : ℕ) : Stays loose m (ilock ip) := by
  have hbusy : Stays loose m (ilockBusy ip) := by
    refine stays_other fun s b s' h => ?_
    split at h
    · cases h
    · split at h
      · cases h
      · cases h
        rfl
  refine stays_bind hbusy fun _ => stays_bind (stays_look _) fun valid => ?_
  split
  · exact stays_pure
  · refine stays_bind (stays_look _) fun _ => stays_bind (stays_bread _) fun _ =>
      stays_bind (stays_change fun _ => rfl) fun _ => stays_bind (stays_brelse _) fun _ =>
        stays_bind (stays_change fun _ => rfl) fun _ => stays_bind (stays_inode ip) fun d => ?_
    split
    · exact stays_panic _
    · exact stays_pure

lemma stays_iunlock (ip : ℕ) : Stays loose m (iunlock ip) := by
  refine stays_other fun s b s' h => ?_
  split at h
  · cases h
  · cases h
    rfl

lemma stays_itruncDirect (ip i k : ℕ) : Stays loose true (itruncDirect ip i k) := by
  induction k generalizing i with
  | zero => exact stays_pure
  | succ k ih =>
    refine stays_bind (stays_inode ip) fun d => ?_
    split
    · exact ih _
    · exact stays_bind (stays_bfree _) fun _ => stays_bind (stays_setInode ip _) fun _ => ih _

lemma stays_itruncIndirect (b j k : ℕ) : Stays loose true (itruncIndirect b j k) := by
  induction k generalizing j with
  | zero => exact stays_pure
  | succ k ih =>
    refine stays_bind (stays_look _) fun a => ?_
    split
    · exact ih _
    · exact stays_bind (stays_bfree _) fun _ => ih _

lemma stays_itrunc (ip : ℕ) : Stays loose true (itrunc ip) := by
  refine stays_bind (stays_itruncDirect ip 0 _) fun _ => stays_bind ?_ fun _ =>
    stays_bind (stays_setInode ip _) fun _ => stays_iupdate ip
  refine stays_bind (stays_inode ip) fun d => ?_
  split
  · exact stays_pure
  · exact stays_bind (stays_bread _) fun _ => stays_bind (stays_itruncIndirect _ 0 _) fun _ =>
      stays_bind (stays_brelse _) fun _ => stays_bind (stays_bfree _) fun _ => stays_setInode ip _

lemma stays_ifree (ip : ℕ) : Stays loose true (ifree ip) :=
  stays_bind (stays_itrunc ip) fun _ => stays_bind (stays_setInode ip _) fun _ =>
    stays_bind (stays_iupdate ip) fun _ => stays_change fun _ => rfl

/-- Outside a transaction `iput` drops its reference and does no more. -/
lemma stays_iput [hc : Clear loose m] (ip : ℕ) : Stays loose m (iput ip) := by
  have htest : Obeys trans (iputTest ip) ⟨m, loose⟩ fun free m' => m' = ⟨m, loose⟩ ∧ (free = true → m = true) := by
    refine obeys_act hc.clear (fun s b s' h => ?_) (fun s b s' hm h => ⟨rfl, fun hb => ?_⟩)
    · split at h
      · split at h
        · cases h
        · cases h
          rfl
      · cases h
        rfl
    · split at h
      · by_contra hout
        exact hm (by simpa using hout) (hc.clear.resolve_left hout) ‹_›
      · cases h
        cases hb
  refine obeys_bind (htest.mono fun free m' h => ?_)
  rw [h.1]
  split
  · rw [h.2 ‹_›]
    exact stays_ifree ip
  · exact stays_pure

lemma stays_iunlockput [Clear loose m] (ip : ℕ) : Stays loose m (iunlockput ip) :=
  stays_bind (stays_iunlock ip) fun _ => stays_iput ip

/-! ### Content -/

/-- Outside a transaction `bmap` finds its blocks and allocates none. -/
lemma stays_bmapAddr [hc : Clear loose m] (ip i : ℕ) : Stays loose m (bmapAddr ip i) := by
  have hact : Obeys trans (Prog.act (.addr ip i) fun s => .ok ((s.icache ip).d.addrs i, s) : Code ℕ) ⟨m, loose⟩
      fun a m' => m' = ⟨m, loose⟩ ∧ (a = 0 → m = true) := by
    refine obeys_act hc.clear (fun s b s' h => by cases h; rfl) (fun s b s' hm h => ⟨rfl, fun hb => ?_⟩)
    cases h
    by_contra hout
    exact hm (by simpa using hout) (hc.clear.resolve_left hout) hb
  refine obeys_bind (hact.mono fun a m' h => ?_)
  rw [h.1]
  split
  · rw [h.2 ‹_›]
    exact stays_bind stays_balloc fun _ => stays_bind (stays_setInode ip _) fun _ => stays_pure
  · exact stays_pure

lemma stays_bmapIndirect [hc : Clear loose m] (addr i : ℕ) : Stays loose m (bmapIndirect addr i) := by
  have hact : Obeys trans (Prog.act (.indirect addr i) fun s => .ok ((s.data addr).word i, s) : Code ℕ) ⟨m, loose⟩
      fun a m' => m' = ⟨m, loose⟩ ∧ (a = 0 → m = true) := by
    refine obeys_act hc.clear (fun s b s' h => by cases h; rfl) (fun s b s' hm h => ⟨rfl, fun hb => ?_⟩)
    cases h
    by_contra hout
    exact hm (by simpa using hout) (hc.clear.resolve_left hout) hb
  refine stays_bind (stays_bread _) fun _ => obeys_bind (hact.mono fun a m' h => ?_)
  rw [h.1]
  split
  · rw [h.2 ‹_›]
    exact stays_bind stays_balloc fun _ => stays_bind (stays_change fun _ => rfl) fun _ =>
      stays_bind (stays_logWrite _) fun _ => stays_bind (stays_brelse _) fun _ => stays_pure
  · exact stays_bind (stays_brelse _) fun _ => stays_pure

lemma stays_bmap [Clear loose m] (ip bn : ℕ) : Stays loose m (bmap ip bn) := by
  unfold bmap
  split
  · exact stays_bmapAddr _ _
  · split
    · exact stays_bind (stays_bmapAddr _ _) fun _ => stays_bmapIndirect _ _
    · exact stays_panic _

lemma stays_readLoop [Clear loose m] (ip fuel off n : ℕ) : Stays loose m (readLoop ip fuel off n) := by
  induction fuel generalizing off n with
  | zero => exact stays_pure
  | succ fuel ih =>
    unfold readLoop
    split
    · exact stays_pure
    · exact stays_bind (stays_bmap _ _) fun _ => stays_bind (stays_bread _) fun _ => stays_bind (stays_look _) fun _ =>
        stays_bind (stays_brelse _) fun _ => stays_bind (ih _ _) fun _ => stays_pure

lemma stays_readi [Clear loose m] (ip off n : ℕ) : Stays loose m (readi ip off n) := by
  refine stays_bind (stays_inode ip) fun d => ?_
  split
  · split
    · exact stays_bind (stays_iunlock ip) fun _ => stays_bind (stays_look _) fun _ =>
        stays_bind (stays_ilock ip) fun _ => stays_pure
    · exact stays_pure
  · split
    · exact stays_pure
    · exact stays_bind (stays_readLoop _ _ _ _) fun _ => stays_pure

lemma stays_writeLoop (ip fuel off : ℕ) (src : List UInt8) : Stays loose true (writeLoop ip fuel off src) := by
  induction fuel generalizing off src with
  | zero => exact stays_pure
  | succ fuel ih =>
    unfold writeLoop
    split
    · exact stays_pure
    · exact stays_bind (stays_bmap _ _) fun _ => stays_bind (stays_bread _) fun _ =>
        stays_bind (stays_change fun _ => rfl) fun _ => stays_bind (stays_logWrite _) fun _ =>
          stays_bind (stays_brelse _) fun _ => ih _ _

lemma stays_writei (ip : ℕ) (src : List UInt8) (off : ℕ) : Stays loose true (writei ip src off) := by
  refine stays_bind (stays_inode ip) fun d => ?_
  split
  · split
    · exact stays_bind (stays_iunlock ip) fun _ => stays_bind (stays_ilock ip) fun _ => stays_pure
    · exact stays_pure
  · split
    · exact stays_pure
    · split
      · exact stays_pure
      · refine stays_bind (stays_writeLoop _ _ _ _) fun _ => stays_bind (stays_inode ip) fun d => ?_
        split
        · exact stays_bind (stays_setInode ip _) fun _ => stays_bind (stays_iupdate ip) fun _ => stays_pure
        · exact stays_pure

/-! ### Directories and paths -/

lemma stays_readDirent [Clear loose m] (dp off : ℕ) (msg : String) : Stays loose m (readDirent dp off msg) := by
  refine stays_bind (stays_readi _ _ _) fun r => ?_
  split
  · split
    · exact stays_pure
    · exact stays_panic _
  · exact stays_panic _

lemma stays_dirlookup [Clear loose m] (dp : ℕ) (name : Name) : Stays loose m (dirlookup dp name) := by
  have hfrom : ∀ k off, Stays loose m (dirlookupFrom dp name off k) := by
    intro k
    induction k with
    | zero => exact fun off => stays_pure
    | succ k ih =>
      intro off
      refine stays_bind (stays_readDirent _ _ _) fun de => ?_
      split
      · exact stays_bind (stays_iget _) fun _ => stays_pure
      · exact ih _
  refine stays_bind (stays_inode dp) fun d => ?_
  split
  · exact stays_panic _
  · exact hfrom _ _

lemma stays_emptyFrom [Clear loose m] (dp off k : ℕ) : Stays loose m (emptyFrom dp off k) := by
  induction k generalizing off with
  | zero => exact stays_pure
  | succ k ih =>
    refine stays_bind (stays_readDirent _ _ _) fun de => ?_
    split
    · exact stays_pure
    · exact ih _

lemma stays_dirlink (dp : ℕ) (name : Name) (inum : ℕ) : Stays loose true (dirlink dp name inum) := by
  refine stays_bind (stays_dirlookup _ _) fun r => ?_
  split
  · exact stays_bind (stays_iput _) fun _ => stays_pure
  · refine stays_bind (stays_inode dp) fun d => stays_bind (stays_emptyFrom _ _ _) fun off =>
      stays_bind (stays_writei _ _ _) fun r => ?_
    split
    · exact stays_pure
    · exact stays_panic _

lemma stays_namexFrom [Clear loose m] (parent : Bool) (fuel ip : ℕ) (path name : Name) :
    Stays loose m (namexFrom parent fuel ip path name) := by
  induction fuel generalizing ip path name with
  | zero => exact stays_pure
  | succ fuel ih =>
    unfold namexFrom
    split
    · split
      · exact stays_bind (stays_iput _) fun _ => stays_pure
      · exact stays_pure
    · refine stays_bind (stays_ilock _) fun _ => stays_bind (stays_inode _) fun d => ?_
      split
      · exact stays_bind (stays_iunlockput _) fun _ => stays_pure
      · split
        · exact stays_bind (stays_iunlock _) fun _ => stays_pure
        · refine stays_bind (stays_dirlookup _ _) fun r => ?_
          split
          · exact stays_bind (stays_iunlockput _) fun _ => stays_pure
          · exact stays_bind (stays_iunlockput _) fun _ => ih _ _ _

lemma stays_namex [Clear loose m] (p : ℕ) (path : Name) (parent : Bool) : Stays loose m (namex p path parent) := by
  unfold namex
  split
  · exact stays_bind (stays_iget _) fun _ => stays_namexFrom _ _ _ _ _
  · exact stays_bind (stays_look _) fun _ => stays_bind (stays_idup _) fun _ => stays_namexFrom _ _ _ _ _

lemma stays_namei [Clear loose m] (p : ℕ) (path : Name) : Stays loose m (namei p path) := by
  refine stays_bind (stays_namex _ _ _) fun r => ?_
  split
  · exact stays_pure
  · exact stays_pure

end stays

/-! ### System calls -/

section goes

variable {α β : Type} {loose m m₁ m₂ : Bool}

/-- Code that begins in a transaction or outside one, as `m` says, and ends as `m₁` says. -/
abbrev Goes {α : Type} (loose m m₁ : Bool) (p : Code α) : Prop :=
  Obeys trans p ⟨m, loose⟩ fun _ m' => m' = ⟨m₁, loose⟩

lemma goes_bind {p : Code α} {g : α → Code β} (hp : Goes loose m m₁ p) (hg : ∀ a, Goes loose m₁ m₂ (g a)) :
    Goes loose m m₂ (p >>= g) :=
  obeys_bind (hp.mono fun a m' h => by rw [h]; exact hg a)

lemma goes_beginTrans : Goes loose false true beginTrans := by
  refine obeys_act rfl (fun s b s' h => ?_) (fun _ _ _ _ _ => rfl)
  split at h
  · cases h
  · rename_i hb
    cases h
    exact ⟨by simpa using hb, rfl⟩

lemma goes_commitTrans : Goes loose true false commitTrans :=
  obeys_act rfl (fun s b s' h => by cases h; rfl) (fun _ _ _ _ _ => rfl)

lemma goes_panic (msg : String) : Goes loose m m₁ (panic msg : Code α) := ⟨trivial, fun _ _ _ h => by cases h⟩

lemma stays_filealloc : Stays loose m filealloc := by
  refine stays_other fun s b s' h => ?_
  split at h
  · cases h
    rfl
  · cases h
    rfl

lemma stays_filedup (f : ℕ) : Stays loose m (filedup f) := by
  refine stays_other fun s b s' h => ?_
  split at h
  · cases h
  · cases h
    rfl

lemma stays_fileclose (f : ℕ) : Stays loose false (fileclose f) := by
  have href : Stays loose false (filecloseRef f) := by
    refine stays_other fun s b s' h => ?_
    split at h
    · cases h
    · split at h
      · cases h
        rfl
      · cases h
        rfl
  refine stays_bind href fun r => ?_
  split
  · exact stays_pure
  · exact goes_bind goes_beginTrans fun _ => goes_bind (stays_iput _) fun _ => goes_commitTrans

lemma stays_filestat (f : ℕ) : Stays loose false (filestat f) := by
  refine stays_bind (stays_look _) fun ff => ?_
  split
  · exact stays_bind (stays_ilock _) fun _ => stays_bind (stays_iunlock _) fun _ => stays_pure
  · exact stays_pure

lemma stays_fileread (f n : ℕ) : Stays true false (fileread f n) := by
  refine stays_bind (stays_look _) fun ff => ?_
  split
  · exact stays_pure
  · split
    · refine stays_bind (stays_ilock _) fun _ => stays_bind (stays_look _) fun _ => stays_bind (stays_readi _ _ _) fun r => ?_
      split
      · exact stays_bind (stays_change fun _ => rfl) fun _ => stays_bind (stays_iunlock _) fun _ => stays_pure
      · exact stays_bind (stays_iunlock _) fun _ => stays_pure
    · exact stays_panic _

lemma stays_filewrite (f : ℕ) (src : List UInt8) : Stays loose false (filewrite f src) := by
  have hchunk : ∀ src, Stays loose false (filewriteChunk f src) := fun src =>
    goes_bind goes_beginTrans fun _ => goes_bind (stays_look _) fun _ => goes_bind (stays_ilock _) fun _ =>
      goes_bind (stays_look _) fun _ => goes_bind (stays_writei _ _ _) fun _ =>
        goes_bind (stays_change fun _ => rfl) fun _ => goes_bind (stays_iunlock _) fun _ =>
          goes_bind goes_commitTrans fun _ => stays_pure
  have hloop : ∀ fuel src n, Stays loose false (filewriteLoop f n fuel src) := by
    intro fuel
    induction fuel with
    | zero => exact fun src n => stays_pure
    | succ fuel ih =>
      intro src n
      unfold filewriteLoop
      split
      · exact stays_pure
      · refine stays_bind (hchunk _) fun r => ?_
        split
        · exact stays_pure
        · split
          · exact stays_panic _
          · exact ih _ _
  refine stays_bind (stays_look _) fun ff => ?_
  split
  · exact stays_pure
  · split
    · exact hloop _ _ _
    · exact stays_panic _

lemma stays_argfd (p fd : ℕ) : Stays loose m (argfd p fd) := stays_look _

lemma stays_setOfile (p fd : ℕ) (v : Option ℕ) : Stays loose m (setOfile p fd v) := stays_change fun _ => rfl

lemma stays_fdalloc (p f : ℕ) : Stays loose m (fdalloc p f) := by
  refine stays_bind (stays_look _) fun pr => ?_
  split
  · exact stays_bind (stays_setOfile _ _ _) fun _ => stays_pure
  · exact stays_pure

lemma stays_sysDup (p fd : ℕ) : Stays loose false (sysDup p fd) := by
  refine stays_bind (stays_argfd _ _) fun r => ?_
  split
  · exact stays_pure
  · refine stays_bind (stays_fdalloc _ _) fun r => ?_
    split
    · exact stays_pure
    · exact stays_bind (stays_filedup _) fun _ => stays_pure

lemma stays_sysRead (p fd n : ℕ) : Stays true false (sysRead p fd n) := by
  refine stays_bind (stays_argfd _ _) fun r => ?_
  split
  · exact stays_pure
  · exact stays_fileread _ _

lemma stays_sysWrite (p fd : ℕ) (src : List UInt8) : Stays loose false (sysWrite p fd src) := by
  refine stays_bind (stays_argfd _ _) fun r => ?_
  split
  · exact stays_pure
  · exact stays_filewrite _ _

lemma stays_sysClose (p fd : ℕ) : Stays loose false (sysClose p fd) := by
  refine stays_bind (stays_argfd _ _) fun r => ?_
  split
  · exact stays_pure
  · exact stays_bind (stays_setOfile _ _ _) fun _ => stays_bind (stays_fileclose _) fun _ => stays_pure

lemma stays_sysFstat (p fd : ℕ) : Stays loose false (sysFstat p fd) := by
  refine stays_bind (stays_argfd _ _) fun r => ?_
  split
  · exact stays_pure
  · exact stays_filestat _

lemma stays_sysLink (p : ℕ) (old new : Option Name) : Stays true false (sysLink p old new) := by
  have hbad : ∀ ip, Goes true true false (linkBad ip) := fun ip =>
    goes_bind (stays_ilock _) fun _ => goes_bind (stays_setInode _ _) fun _ => goes_bind (stays_iupdate _) fun _ =>
      goes_bind (stays_iunlockput _) fun _ => goes_bind goes_commitTrans fun _ => stays_pure
  have htarget : ∀ ip new, Goes true true false (linkTarget p ip new) := by
    intro ip new
    refine goes_bind (stays_namex p new true) fun r => ?_
    split
    · exact hbad _
    · refine goes_bind (stays_ilock _) fun _ => goes_bind (stays_look _) fun _ => goes_bind (stays_dirlink _ _ _) fun r => ?_
      split
      · exact goes_bind (stays_iunlockput _) fun _ => goes_bind (stays_iput _) fun _ =>
          goes_bind goes_commitTrans fun _ => stays_pure
      · exact goes_bind (stays_iunlockput _) fun _ => hbad _
  unfold sysLink
  split
  · refine stays_bind (stays_namei _ _) fun r => ?_
    split
    · exact stays_pure
    · refine goes_bind goes_beginTrans fun _ => goes_bind (stays_ilock _) fun _ => goes_bind (stays_inode _) fun d => ?_
      split
      · exact goes_bind (stays_iunlockput _) fun _ => goes_bind goes_commitTrans fun _ => stays_pure
      · exact goes_bind (stays_setInode _ _) fun _ => goes_bind (stays_iupdate _) fun _ =>
          goes_bind (stays_iunlock _) fun _ => htarget _ _
  · exact stays_pure

lemma stays_isdirempty [Clear loose m] (dp : ℕ) : Stays loose m (isdirempty dp) := by
  have hfrom : ∀ k off, Stays loose m (isdiremptyFrom dp off k) := by
    intro k
    induction k with
    | zero => exact fun off => stays_pure
    | succ k ih =>
      intro off
      refine stays_bind (stays_readDirent _ _ _) fun de => ?_
      split
      · exact stays_pure
      · exact ih _
  exact stays_bind (stays_inode dp) fun d => hfrom _ _

lemma stays_sysUnlink (p : ℕ) (path : Option Name) : Stays true false (sysUnlink p path) := by
  have hbad : ∀ dp, Goes true true false (unlinkBad dp) := fun dp =>
    goes_bind (stays_iunlockput _) fun _ => goes_bind goes_commitTrans fun _ => stays_pure
  have hdots : ∀ dp ip, Stays true true (unlinkDotdot dp ip) := by
    intro dp ip
    refine stays_bind (stays_inode _) fun d => ?_
    split
    · exact stays_bind (stays_setInode _ _) fun _ => stays_iupdate _
    · exact stays_pure
  have hentry : ∀ dp ip off, Goes true true false (unlinkEntry dp ip off) := by
    intro dp ip off
    refine goes_bind (stays_writei _ _ _) fun r => ?_
    split
    · exact goes_panic _
    · exact goes_bind (hdots _ _) fun _ => goes_bind (stays_iunlockput _) fun _ => goes_bind (stays_setInode _ _) fun _ =>
        goes_bind (stays_iupdate _) fun _ => goes_bind (stays_iunlockput _) fun _ =>
          goes_bind goes_commitTrans fun _ => stays_pure
  unfold sysUnlink
  split
  · exact stays_pure
  · refine stays_bind (stays_namex p _ true) fun r => ?_
    split
    · exact stays_pure
    · refine goes_bind goes_beginTrans fun _ => goes_bind (stays_ilock _) fun _ => ?_
      split
      · exact hbad _
      · refine goes_bind (stays_dirlookup _ _) fun r => ?_
        split
        · exact hbad _
        · refine goes_bind (stays_ilock _) fun _ => goes_bind (stays_inode _) fun d => ?_
          split
          · exact goes_panic _
          · split
            · refine goes_bind (stays_isdirempty _) fun e => ?_
              split
              · exact hentry _ _ _
              · exact goes_bind (stays_iunlockput _) fun _ => hbad _
            · exact hentry _ _ _

lemma stays_create (p : ℕ) (path : Name) (type major minor : Int16) : Stays loose true (create p path type major minor) := by
  have hdots : ∀ dp ip, Stays loose true (createDots dp ip) := by
    intro dp ip
    refine stays_bind (stays_setInode _ _) fun _ => stays_bind (stays_iupdate _) fun _ => stays_bind (stays_look _) fun _ =>
      stays_bind (stays_look _) fun _ => stays_bind (stays_dirlink _ _ _) fun r => ?_
    split
    · exact stays_panic _
    · refine stays_bind (stays_dirlink _ _ _) fun r => ?_
      split
      · exact stays_panic _
      · exact stays_pure
  have hentry : ∀ dp ip name, Stays loose true (createEntry dp ip name) := by
    intro dp ip name
    refine stays_bind (stays_look _) fun _ => stays_bind (stays_dirlink _ _ _) fun r => ?_
    split
    · exact stays_panic _
    · exact stays_bind (stays_iunlockput _) fun _ => stays_pure
  have hnew : ∀ dp ip name, Stays loose true (createNew dp ip name type major minor) := by
    intro dp ip name
    refine stays_bind (stays_ilock _) fun _ => stays_bind (stays_setInode _ _) fun _ => stays_bind (stays_iupdate _) fun _ => ?_
    split
    · exact stays_bind (hdots _ _) fun _ => hentry _ _ _
    · exact hentry _ _ _
  refine stays_bind (stays_namex p path true) fun r => ?_
  split
  · exact stays_pure
  · refine stays_bind (stays_ilock _) fun _ => stays_bind (stays_dirlookup _ _) fun r => ?_
    split
    · refine stays_bind (stays_iunlockput _) fun _ => stays_bind (stays_ilock _) fun _ => stays_bind (stays_inode _) fun d => ?_
      split
      · exact stays_pure
      · exact stays_bind (stays_iunlockput _) fun _ => stays_pure
    · exact stays_bind (stays_ialloc _) fun _ => hnew _ _ _

lemma stays_openFile (p ip omode : ℕ) : Stays true false (openFile p ip omode) := by
  refine stays_bind stays_filealloc fun r => ?_
  split
  · exact stays_bind (stays_iunlockput _) fun _ => stays_pure
  · refine stays_bind (stays_fdalloc _ _) fun r => ?_
    split
    · exact stays_bind (stays_fileclose _) fun _ => stays_bind (stays_iunlockput _) fun _ => stays_pure
    · exact stays_bind (stays_iunlock _) fun _ => stays_bind (stays_change fun _ => rfl) fun _ => stays_pure

lemma stays_sysOpen (p : ℕ) (path : Option Name) (omode : ℕ) : Stays true false (sysOpen p path omode) := by
  unfold sysOpen
  split
  · exact stays_pure
  · split
    · refine goes_bind goes_beginTrans fun _ => goes_bind (stays_create _ _ _ _ _) fun r =>
        goes_bind goes_commitTrans fun _ => ?_
      split
      · exact stays_pure
      · exact stays_openFile _ _ _
    · refine stays_bind (stays_namei _ _) fun r => ?_
      split
      · exact stays_pure
      · refine stays_bind (stays_ilock _) fun _ => stays_bind (stays_inode _) fun d => ?_
        split
        · exact stays_bind (stays_iunlockput _) fun _ => stays_pure
        · exact stays_openFile _ _ _

lemma goes_closeNew (r : Option ℕ) : Goes loose true false (closeNew r) := by
  unfold closeNew
  split
  · exact goes_bind goes_commitTrans fun _ => stays_pure
  · exact goes_bind (stays_iunlockput _) fun _ => goes_bind goes_commitTrans fun _ => stays_pure

lemma stays_sysMkdir (p : ℕ) (path : Option Name) : Stays loose false (sysMkdir p path) := by
  refine goes_bind goes_beginTrans fun _ => ?_
  split
  · exact goes_closeNew _
  · exact goes_bind (stays_create _ _ _ _ _) fun r => goes_closeNew r

lemma stays_sysMknod (p : ℕ) (path : Option Name) (major minor : Int16) : Stays loose false (sysMknod p path major minor) := by
  refine goes_bind goes_beginTrans fun _ => ?_
  split
  · exact goes_closeNew _
  · exact goes_bind (stays_create _ _ _ _ _) fun r => goes_closeNew r

lemma stays_sysChdir (p : ℕ) (path : Option Name) : Stays true false (sysChdir p path) := by
  unfold sysChdir
  split
  · exact stays_pure
  · refine stays_bind (stays_namei _ _) fun r => ?_
    split
    · exact stays_pure
    · refine stays_bind (stays_ilock _) fun _ => stays_bind (stays_inode _) fun d => ?_
      split
      · exact stays_bind (stays_iunlockput _) fun _ => stays_pure
      · exact stays_bind (stays_iunlock _) fun _ => stays_bind (stays_look _) fun _ => stays_bind (stays_iput _) fun _ =>
          stays_bind (stays_change fun _ => rfl) fun _ => stays_pure

lemma stays_fork (p child : ℕ) : Stays loose false (fork p child) := by
  have hfile : ∀ fd, Stays loose false (forkFile p child fd) := by
    intro fd
    refine stays_bind (stays_look _) fun r => ?_
    split
    · exact stays_bind (stays_filedup _) fun _ => stays_setOfile _ _ _
    · exact stays_pure
  have hfiles : ∀ k fd, Stays loose false (forkFiles p child fd k) := by
    intro k
    induction k with
    | zero => exact fun fd => stays_pure
    | succ k ih => exact fun fd => stays_bind (hfile fd) fun _ => ih _
  exact stays_bind (hfiles _ _) fun _ => stays_bind (stays_look _) fun _ => stays_bind (stays_idup _) fun _ =>
    stays_bind (stays_change fun _ => rfl) fun _ => stays_pure

lemma stays_exit (p : ℕ) : Stays true false (exit p) := by
  have hfile : ∀ fd, Stays true false (exitFile p fd) := by
    intro fd
    refine stays_bind (stays_look _) fun r => ?_
    split
    · exact stays_bind (stays_fileclose _) fun _ => stays_setOfile _ _ _
    · exact stays_pure
  have hfiles : ∀ k fd, Stays true false (exitFiles p fd k) := by
    intro k
    induction k with
    | zero => exact fun fd => stays_pure
    | succ k ih => exact fun fd => stays_bind (hfile fd) fun _ => ih _
  exact stays_bind (hfiles _ _) fun _ => stays_bind (stays_look _) fun _ => stays_iput _

lemma stays_loaduvm [Clear loose m] (ip off fuel n : ℕ) : Stays loose m (loaduvm ip off fuel n) := by
  induction fuel generalizing off n with
  | zero => exact stays_pure
  | succ fuel ih =>
    unfold loaduvm
    split
    · exact stays_pure
    · refine stays_bind (stays_readi _ _ _) fun r => ?_
      split
      · split
        · exact ih _ _
        · exact stays_pure
      · exact stays_pure

lemma stays_execSegments [Clear loose m] (alloc : ℕ → Bool) (ip i off k : ℕ) : Stays loose m (execSegments alloc ip i off k) := by
  induction k generalizing i off with
  | zero => exact stays_pure
  | succ k ih =>
    refine stays_bind (stays_readi _ _ _) fun r => ?_
    split
    · exact stays_pure
    · split_ifs
      · exact stays_pure
      · exact ih _ _
      · exact stays_pure
      · exact stays_pure
      · refine stays_bind (stays_loaduvm _ _ _ _) fun r => ?_
        split
        · exact ih _ _
        · exact stays_pure

lemma stays_exec (p : ℕ) (path : Name) (alloc : ℕ → Bool) : Stays true false (exec p path alloc) := by
  refine stays_bind (stays_namei _ _) fun r => ?_
  split
  · exact stays_pure
  · refine stays_bind (stays_ilock _) fun _ => stays_bind (stays_readi _ _ _) fun r => ?_
    split
    · exact stays_bind (stays_iunlockput _) fun _ => stays_pure
    · split
      · exact stays_bind (stays_iunlockput _) fun _ => stays_pure
      · exact stays_bind (stays_execSegments _ _ _ _ _) fun _ => stays_bind (stays_iunlockput _) fun _ => stays_pure

end goes

/-! ### Runs -/

/-- The system calls that touch the file system. -/
inductive Call where
  | dup (fd : ℕ)
  | read (fd n : ℕ)
  | write (fd : ℕ) (src : List UInt8)
  | close (fd : ℕ)
  | fstat (fd : ℕ)
  | link (old new : Option Name)
  | unlink (path : Option Name)
  | open (path : Option Name) (omode : ℕ)
  | mkdir (path : Option Name)
  | mknod (path : Option Name) (major minor : Int16)
  | chdir (path : Option Name)
  | fork (child : ℕ)
  | exec (path : Name) (alloc : ℕ → Bool)
  | exit

/-- The code that process `p` executes in a call, with the value it returns. -/
def Call.code (p : ℕ) : Call → Code Int
  | .dup fd => sysDup p fd
  | .read fd n => sysRead p fd n
  | .write fd src => sysWrite p fd src
  | .close fd => sysClose p fd
  | .fstat fd => sysFstat p fd
  | .link old new => sysLink p old new
  | .unlink path => sysUnlink p path
  | .open path omode => sysOpen p path omode
  | .mkdir path => sysMkdir p path
  | .mknod path major minor => sysMknod p path major minor
  | .chdir path => sysChdir p path
  | .fork child => Files.fork p child
  | .exec path alloc => Files.exec p path alloc
  | .exit => do
    Files.exit p
    return 0

/-- The calls that put inodes or read content outside a transaction. -/
def Call.loose : Call → Bool
  | .read .. | .link .. | .unlink .. | .open .. | .chdir .. | .exec .. | .exit => true
  | _ => false

/-- The mode in which a call begins. -/
def Call.enter (c : Call) : Mode := ⟨false, c.loose⟩

/-- A call made by a thread. -/
def Call.thread (p : ℕ) (c : Call) : Code Unit := do
  let _ ← c.code p
  return ()

lemma stays_thread (p : ℕ) (c : Call) : Stays c.loose false (c.thread p) := by
  refine stays_bind ?_ fun _ => stays_pure
  cases c with
  | dup fd => exact stays_sysDup p fd
  | read fd n => exact stays_sysRead p fd n
  | write fd src => exact stays_sysWrite p fd src
  | close fd => exact stays_sysClose p fd
  | fstat fd => exact stays_sysFstat p fd
  | link old new => exact stays_sysLink p old new
  | unlink path => exact stays_sysUnlink p path
  | «open» path omode => exact stays_sysOpen p path omode
  | mkdir path => exact stays_sysMkdir p path
  | mknod path major minor => exact stays_sysMknod p path major minor
  | chdir path => exact stays_sysChdir p path
  | fork child => exact stays_fork p child
  | exec path alloc => exact stays_exec p path alloc
  | exit => exact stays_bind (stays_exit p) fun _ => stays_pure

/-- The file system with its processes. -/
abbrev World := Interleave.World State Stop Label

/-- No process is in a call and no transaction is open. -/
structure Boot (w : World) : Prop where
  idle : ∀ p, w.thread p = .ret ()
  busy : w.shared.busy = false

/-- Runs of any processes that make any calls, interleaved in any way. -/
abbrev FileRun (n : ℕ) := Lts.Run Boot (Interleave.step Call.thread) n

/-- The modes of the processes after `k` steps. -/
def modes {n : ℕ} (r : FileRun n) : ℕ → (ℕ → Mode)
  | 0 => fun _ => ⟨false, false⟩
  | k + 1 => Interleave.advance trans Call.enter (r.state k) (r.label k) (modes r k)

/-- Process `p` is between its own `begin_trans` and `commit_trans` after `k` steps. -/
def inTrans {n : ℕ} (r : FileRun n) (k p : ℕ) : Bool := (modes r k p).inside

/-- The step does not go the wrong way in a call that puts inodes and reads outside a transaction: an `iput` there
that finds an inode without links at its last reference, or a `bmap` that finds a block missing. -/
def KeepsOut {n : ℕ} (r : FileRun n) (k : ℕ) : Prop :=
  Interleave.Assumes trans (modes r k) (r.state k) (r.label k)

/-- One process at most is in a transaction, and then the log is busy. -/
structure Exclusive (mode : ℕ → Mode) (w : World) : Prop where
  one : ∀ p q, (mode p).inside = true → (mode q).inside = true → p = q
  busy : ∀ p, (mode p).inside = true → w.shared.busy = true

lemma Exclusive.step {mode : ℕ → Mode} {w w' : World} {ev : Interleave.Event Call} (h : Exclusive mode w)
    (hd : Interleave.Disciplined trans (fun m => m.inside = false) mode w)
    (hs : Interleave.step Call.thread ev w = some w') : Exclusive (Interleave.advance trans Call.enter w ev mode) w' := by
  have hdoes := hd.does hs
  unfold Interleave.advance
  cases ev with
  | call p c =>
    have hshared : w'.shared = w.shared := hdoes
    have hin : ∀ q, (if q = p then c.enter else mode q).inside = true → (mode q).inside = true := by
      intro q hq
      split at hq
      · cases hq
      · exact hq
    refine ⟨fun q q' hq hq' => h.one q q' (hin q hq) (hin q' hq'), fun q hq => ?_⟩
    rw [hshared]
    exact h.busy q (hin q hq)
  | go t =>
    dsimp only
    cases hact : Interleave.action w (.go t : Interleave.Event Call) with
    | none =>
      rw [hact] at hdoes
      refine ⟨h.one, fun p hp => ?_⟩
      rw [hdoes]
      exact h.busy p hp
    | some v =>
      obtain ⟨p, l⟩ := v
      rw [hact] at hdoes
      obtain ⟨hok, hdoes⟩ := hdoes
      -- a label that changes nothing
      have hsame : w'.shared.busy = w.shared.busy → trans.next l (mode p) = mode p →
          Exclusive (fun q => if q = p then trans.next l (mode q) else mode q) w' := by
        intro hb hn
        have he : (fun q => if q = p then trans.next l (mode q) else mode q) = mode := by
          funext q
          split
          · rw [‹q = p›, hn]
          · rfl
        rw [he]
        exact ⟨h.one, fun q hq => by rw [hb]; exact h.busy q hq⟩
      cases l with
      | begin =>
        obtain ⟨hfree, hbusy⟩ := hdoes
        have hnone : ∀ q, (mode q).inside = false := by
          intro q
          by_contra hq
          have := h.busy q (by simpa using hq)
          rw [hfree] at this
          exact Bool.noConfusion this
        refine ⟨fun q q' hq hq' => ?_, fun q _ => hbusy⟩
        have only : ∀ q, (if q = p then trans.next Label.begin (mode q) else mode q).inside = true → q = p := by
          intro q hq
          by_contra hne
          rw [if_neg hne, hnone] at hq
          exact Bool.noConfusion hq
        rw [only q hq, only q' hq']
      | commit =>
        have hmode : (mode p).inside = true := hok
        have hnone : ∀ q, (if q = p then trans.next Label.commit (mode q) else mode q).inside = false := by
          intro q
          split
          · rfl
          · by_contra hq
            exact absurd (h.one q p (by simpa using hq) hmode) ‹¬ q = p›
        exact ⟨fun q _ hq => Bool.noConfusion ((hnone q).symm.trans hq),
          fun q hq => Bool.noConfusion ((hnone q).symm.trans hq)⟩
      | logWrite x => exact hsame hdoes rfl
      | drop ip => exact hsame hdoes rfl
      | addr ip i => exact hsame hdoes rfl
      | indirect b i => exact hsame hdoes rfl
      | other => exact hsame hdoes rfl

/-- A disk whose root directory has one entry, the empty directory `d`. Processes 1 and 2 stand in
the root. -/
def dirState : State where
  sb := ⟨1024, 985, 200, 10⟩
  dinode i :=
    if i = 1 then ⟨T_DIR, 0, 0, 2, 48, fun x => if x = 0 then 29 else 0⟩
    else if i = 2 then ⟨T_DIR, 0, 0, 1, 32, fun x => if x = 0 then 30 else 0⟩
    else Dinode.zero
  bit b := decide (b < 31)
  data b :=
    if b = 29 then fun i => (Dirent.toBytes 1 dot ++ Dirent.toBytes 1 dotdot ++ Dirent.toBytes 2 [100]).getD i 0
    else if b = 30 then fun i => (Dirent.toBytes 2 dot ++ Dirent.toBytes 1 dotdot).getD i 0
    else fun _ => 0
  held := []
  icache ip := if ip = 0 then ⟨1, 2, false, false, Dinode.zero⟩ else ⟨0, 0, false, false, Dinode.zero⟩
  busy := false
  logged := []
  file _ := ⟨.none, 0, false, false, 0, 0⟩
  proc _ := ⟨0, fun _ => none⟩
  console _ := []

def dirWorld : World := ⟨dirState, fun _ => .ret ()⟩

lemma boot_dirWorld : Boot dirWorld := ⟨fun _ => rfl, rfl⟩

instance : Inhabited (Interleave.Event Call) := ⟨.go 0⟩

/-- Process `p` makes the call and takes `k` actions. -/
def calls (p : ℕ) (c : Call) (k : ℕ) : List (Interleave.Event Call) := .call p c :: List.replicate k (.go p)

def isLogWrite : Option Label → Bool
  | some (.logWrite _) => true
  | _ => false

lemma logWrite_of_isLogWrite {o : Option Label} (h : isLogWrite o = true) : ∃ x, o = some (.logWrite x) := by
  unfold isLogWrite at h
  split at h
  · exact ⟨_, rfl⟩
  · exact Bool.noConfusion h

/-- Neither of the two actions goes the wrong way. -/
def straight (w : World) (ev : Interleave.Event Call) : Bool :=
  match Interleave.action w ev with
  | some (_, .drop ip) => ¬ lastLink (w.shared.icache ip)
  | some (_, .addr ip i) => (w.shared.icache ip).d.addrs i ≠ 0
  | some (_, .indirect b i) => (w.shared.data b).word i ≠ 0
  | _ => true

lemma keepsOut_of_straight {n : ℕ} {r : FileRun n} {k : ℕ} (h : straight (r.state k) (r.label k) = true) :
    KeepsOut r k := by
  intro p l hact
  unfold straight at h
  rw [hact] at h
  cases l with
  | drop ip => exact fun _ _ => by simpa using h
  | addr ip i => exact fun _ _ => by simpa using h
  | indirect b i => exact fun _ _ => by simpa using h
  | begin => trivial
  | commit => trivial
  | logWrite x => trivial
  | other => trivial

/-- Process 1 enters `d`, process 2 removes it, process 1 leaves. -/
def leaveRemoved : List (Interleave.Event Call) :=
  calls 1 (.chdir (some [100])) 43 ++ calls 2 (.unlink (some [100])) 55 ++ calls 1 (.chdir (some [slash])) 14

/-- The action is not a `begin_trans` of process 1. -/
def notBegin (w : World) (ev : Interleave.Event Call) : Bool :=
  match Interleave.action w ev with
  | some (1, .begin) => false
  | _ => true

lemma outside_of_notBegin {w : World} {ev : Interleave.Event Call} {mode : ℕ → Mode} (hq : notBegin w ev = true)
    (hm : (mode 1).inside = false) : (Interleave.advance trans Call.enter w ev mode 1).inside = false := by
  unfold Interleave.advance
  cases ev with
  | call p c =>
    dsimp only
    split
    · rfl
    · exact hm
  | go t =>
    unfold notBegin at hq
    dsimp only
    cases hact : Interleave.action w (.go t : Interleave.Event Call) with
    | none => exact hm
    | some v =>
      obtain ⟨p, l⟩ := v
      simp only [hact] at hq ⊢
      by_cases hp : 1 = p
      · subst hp
        rw [if_pos rfl]
        cases l with
        | begin => cases hq
        | commit => rfl
        | logWrite x => exact hm
        | drop ip => exact hm
        | addr ip i => exact hm
        | indirect b i => exact hm
        | other => exact hm
      · rwa [if_neg hp]

end Files

end Os132

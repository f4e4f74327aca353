import Os132.Files.Allocation

/-!
# The allocator on the images of mkfs (mkfs.c)

mkfs lays out the disk: it hands out blocks one after the other from the first data block on, and in
the end marks all of them. As long as a block of the data area is free `balloc` returns one. When all
are in use it goes on to the log, which nothing marks.
-/

namespace Os132

namespace Files

open Prog

/-- `sb`: `size`, `nblocks`, `ninodes` and `nlog` of mkfs.c. -/
def mkfsSuper : Super := ⟨1024, 985, 200, LOGSIZE⟩

/-- What mkfs has written, and its counters. Inodes are in the inode blocks as long as there are no more than
these have room for. -/
@[ext]
structure Mkfs where
  dinode : ℕ → Dinode
  data : ℕ → Block
  freeblock : ℕ
  usedblocks : ℕ
  freeinode : ℕ

/-- A file on the command line: its name, and what the successive calls of `read` return. -/
structure HostFile where
  name : Name
  reads : List (List UInt8)

namespace Mkfs

/-- Before the root directory is made. -/
def start : Mkfs where
  dinode _ := Dinode.zero
  data _ _ := 0
  freeblock := mkfsSuper.ninodes / IPB + 3 + (mkfsSuper.size / (512 * 8) + 1)
  usedblocks := mkfsSuper.ninodes / IPB + 3 + (mkfsSuper.size / (512 * 8) + 1)
  freeinode := 1

def winode (m : Mkfs) (inum : ℕ) (d : Dinode) : Mkfs := { m with dinode := fun x => if x = inum then d else m.dinode x }

def wsect (m : Mkfs) (sec : ℕ) (b : Block) : Mkfs := { m with data := fun x => if x = sec then b else m.data x }

/-- `freeblock++` and `usedblocks++` -/
def take (m : Mkfs) : Mkfs := { m with freeblock := m.freeblock + 1, usedblocks := m.usedblocks + 1 }

/-- The new inode is number `m.freeinode`. -/
def ialloc (m : Mkfs) (type : Int16) : Mkfs :=
  { m.winode m.freeinode { Dinode.zero with type := type, nlink := 1 } with freeinode := m.freeinode + 1 }

/-- `din.addrs[i] = b` -/
def setAddr (d : Dinode) (i b : ℕ) : Dinode := { d with addrs := fun x => if x = i then b else d.addrs x }

/-- The indirect block of `din`, allocated if there is none. -/
def appendIndirect (m : Mkfs) (d : Dinode) : Mkfs × Dinode :=
  if d.addrs NDIRECT = 0 then (m.take, setAddr d NDIRECT m.freeblock) else (m, d)

/-- The address in entry `j` of the indirect block `a`, allocated if there is none. `rsect` fails
behind the end of the image. -/
def appendWord (m : Mkfs) (a j : ℕ) : Option (Mkfs × ℕ) :=
  if mkfsSuper.size ≤ a then none
  else if (m.data a).word j = 0 then some (m.take.wsect a ((m.data a).setWord j m.freeblock), m.freeblock)
  else some (m, (m.data a).word j)

/-- The address of block `fbn` in `iappend`, allocated if there is none. -/
def appendAddr (m : Mkfs) (d : Dinode) (fbn : ℕ) : Option (Mkfs × Dinode × ℕ) :=
  if fbn < NDIRECT then
    if d.addrs fbn = 0 then some (m.take, setAddr d fbn m.freeblock, m.freeblock)
    else some (m, d, d.addrs fbn)
  else
    let r := m.appendIndirect d
    match r.1.appendWord (r.2.addrs NDIRECT) (fbn - NDIRECT) with
    | none => none
    | some (m, x) => some (m, r.2, x)

/-- The loop of `iappend`. Every pass writes at least one byte, so `p.length` passes suffice. -/
def appendLoop : ℕ → Mkfs → Dinode → ℕ → List UInt8 → Option (Mkfs × Dinode × ℕ)
  | 0, m, d, off, _ => some (m, d, off)
  | fuel + 1, m, d, off, p =>
    if p.length = 0 then some (m, d, off)
    else if MAXFILE ≤ off / 512 then none
    else
      match m.appendAddr d (off / 512) with
      | none => none
      | some (m, d, x) =>
        let n := min p.length ((off / 512 + 1) * 512 - off)
        if mkfsSuper.size ≤ x then none
        else appendLoop fuel (m.wsect x ((m.data x).copy (off - off / 512 * 512) (p.take n))) d (off + n) (p.drop n)

def iappend (inum : ℕ) (p : List UInt8) (m : Mkfs) : Option Mkfs :=
  match appendLoop p.length m (m.dinode inum) (m.dinode inum).size p with
  | none => none
  | some (m, d, off) => some (m.winode inum { d with size := off })

/-- One pass of the loop over the command line. -/
def addFile (m : Mkfs) (f : HostFile) : Option Mkfs :=
  if slash ∈ f.name then none
  else
    let name := if f.name.head? = some 95 then f.name.tail else f.name
    let inum := m.freeinode
    match (m.ialloc T_FILE).iappend ROOTINO (Dirent.toBytes inum name) with
    | none => none
    | some m => f.reads.foldlM (fun m p => m.iappend inum p) m

/-- `main`, up to `balloc(usedblocks)`, which marks the first `usedblocks` blocks. -/
def mkfs (files : List HostFile) : Option Mkfs := do
  let m ← (start.ialloc T_DIR).iappend ROOTINO (Dirent.toBytes ROOTINO dot)
  let m ← m.iappend ROOTINO (Dirent.toBytes ROOTINO dotdot)
  let m ← files.foldlM addFile m
  let d := m.dinode ROOTINO
  let m := m.winode ROOTINO { d with size := (d.size / BSIZE + 1) * BSIZE }
  if m.usedblocks < 512 * 8 then some m else none

/-- The disk has the contents that mkfs has written. -/
structure Writes (m : Mkfs) (s : State) : Prop where
  sb : s.sb = mkfsSuper
  dinode : s.dinode = m.dinode
  data : s.data = m.data
  bit : ∀ b, s.bit b = true ↔ b < m.usedblocks

end Mkfs

/-- An image that mkfs makes for no more files than the inode blocks have room for. -/
def MkfsImage (s : State) : Prop :=
  ∃ files m, files.length + 1 < (mkfsSuper.ninodes / IPB + 1) * IPB ∧ Mkfs.mkfs files = some m ∧ m.Writes s

/-! ### mkfs uses no block twice -/

/-- The blocks up to `f` are in use, and those of the inodes are different. -/
structure Laid (v : ℕ → Dinode) (data : ℕ → Block) (f : ℕ) : Prop where
  owns : SoleOwner (hold v data) (· < f) (dataStart mkfsSuper ≤ ·)
  start : dataStart mkfsSuper ≤ f
  blank : ∀ b, f ≤ b → data b = fun _ => 0

namespace Laid

variable {v v' : ℕ → Dinode} {data : ℕ → Block} {f i k b : ℕ}

lemma pos (h : Laid v data f) : f ≠ 0 := by
  have h1 := h.start
  have : 0 < dataStart mkfsSuper := by decide
  omega

lemma not_indirect (h : Laid v data f) (j : ℕ) : (v j).addrs NDIRECT ≠ f := by
  intro hj
  have := h.owns.marked (j, .slot NDIRECT) f (by
    simp only [hold, le_refl, if_true]
    exact block_eq.2 ⟨hj, h.pos⟩)
  omega

lemma slot (h : Laid v data f) (hk : k ≤ NDIRECT) (hz : (v i).addrs k = 0)
    (hv : ∀ j x, (v' j).addrs x = if j = i ∧ x = k then f else (v j).addrs x) : Laid v' data (f + 1) := by
  obtain ⟨-, hnew, hsame⟩ := hold_setSlot hk h.pos hz hv h.not_indirect (h.blank f le_rfl) fun _ _ => rfl
  refine ⟨h.owns.put (by omega) h.start hnew hsame fun c hc => by omega, ?_, fun b hb => h.blank b (by omega)⟩
  have := h.start
  omega

/-- The next block in an entry of an indirect block. -/
lemma word (h : Laid v data f) {a j : ℕ} (hj : j < NINDIRECT) (hf : f < 2 ^ 32) (ha : (v i).addrs NDIRECT = a) (ha0 : a ≠ 0)
    (hz : (data a).word j = 0) : Laid v (fun x => if x = a then (data a).setWord j f else data x) (f + 1) := by
  have hslot : ∀ i', (v i').addrs NDIRECT = a → hold v data (i', .slot NDIRECT) = some a := by
    intro i' hi'
    simp only [hold, le_refl, if_true]
    exact block_eq.2 ⟨hi', ha0⟩
  have hone : ∀ i', (v i').addrs NDIRECT = a → i' = i := fun i' hi' =>
    (Prod.mk.inj (h.owns.once _ _ a (hslot i' hi') (hslot i ha))).1
  have haf : a < f := h.owns.marked _ a (hslot i ha)
  obtain ⟨-, hnew, hsame⟩ := hold_putWord hj h.pos hf ha ha0 hone h.not_indirect hz
    (if_pos rfl : (fun x => if x = a then (data a).setWord j f else data x) a = _) fun c h1 _ => if_neg h1
  refine ⟨h.owns.put (by omega) h.start hnew hsame fun c hc => by omega, ?_, fun b hb => ?_⟩
  · have := h.start
    omega
  · rw [if_neg (by omega)]
    exact h.blank b (by omega)

/-- The contents of a block of a file. -/
lemma write (h : Laid v data f) {x : ℕ × Place} (hx : hold v data x = some b) (hne : ∀ i, x ≠ (i, .slot NDIRECT)) (blk : Block) :
    Laid v (fun c => if c = b then blk else data c) f := by
  have hb0 : b ≠ 0 := by
    rintro rfl
    have := h.owns.inside x 0 hx
    exact absurd this (by decide)
  have hno : ∀ i, (v i).addrs NDIRECT ≠ b := by
    intro i hi
    refine hne i (h.owns.once _ _ b hx ?_)
    simp only [hold, le_refl, if_true]
    exact block_eq.2 ⟨hi, hb0⟩
  have hhold : hold v (fun c => if c = b then blk else data c) = hold v data := by
    funext y
    obtain ⟨i, k | j⟩ := y
    · rfl
    · simp only [hold, if_neg (hno i)]
  have hbf := h.owns.marked x b hx
  refine ⟨hhold ▸ h.owns, h.start, fun c hc => ?_⟩
  rw [if_neg (by omega)]
  exact h.blank c hc

lemma of_addrs (h : Laid v data f) (hv : ∀ i k, k ≤ NDIRECT → (v' i).addrs k = (v i).addrs k ∨ (v' i).addrs k = 0) :
    Laid v' data f :=
  ⟨h.owns.sub fun _ _ hx => hold_sub hv hx, h.start, h.blank⟩

end Laid

namespace Mkfs

/-- The inodes with a copy of one that is not written yet. -/
def having (m : Mkfs) (inum : ℕ) (d : Dinode) : ℕ → Dinode := (m.winode inum d).dinode

/-- What holds between the passes of `iappend`. -/
structure Ok (m : Mkfs) (v : ℕ → Dinode) : Prop where
  laid : Laid v m.data m.freeblock
  used : m.usedblocks = m.freeblock
  fits : m.freeblock ≤ mkfsSuper.size

variable {m m' : Mkfs} {d d' : Dinode} {inum fbn off k x : ℕ} {p : List UInt8}

lemma having_self : m.having inum d inum = d := if_pos rfl

lemma having_setAddr (j : ℕ) : (m.having inum (setAddr d k x) j).addrs i =
    if j = inum ∧ i = k then x else (m.having inum d j).addrs i := by
  unfold having winode setAddr
  by_cases hj : j = inum
  · by_cases hi : i = k <;> simp [hj, hi]
  · simp [hj]

/-- `x` is the block of a place other than an entry for an indirect block. -/
def Holds (m : Mkfs) (inum : ℕ) (d : Dinode) (x : ℕ) : Prop :=
  ∃ y, (∀ i, y ≠ (i, .slot NDIRECT)) ∧ hold (m.having inum d) m.data y = some x

lemma Ok.slot (h : m.Ok (m.having inum d)) (hk : k ≤ NDIRECT) (hz : d.addrs k = 0) (hf : m.freeblock < mkfsSuper.size) :
    m.take.Ok (m.take.having inum (setAddr d k m.freeblock)) :=
  ⟨h.laid.slot (i := inum) hk (by rw [having_self]; exact hz) fun j i => having_setAddr j, congrArg (· + 1) h.used, hf⟩

lemma Ok.appendWord {a j : ℕ} (h : m.Ok (m.having inum d)) (hj : j < NINDIRECT) (ha : d.addrs NDIRECT = a) (ha0 : a ≠ 0)
    (hs : m.appendWord a j = some (m', x)) (hx : x < mkfsSuper.size) : m'.Ok (m'.having inum d) ∧ m'.Holds inum d x := by
  have hf : m.freeblock < 2 ^ 32 := lt_of_le_of_lt h.fits (by decide)
  unfold Mkfs.appendWord at hs
  split_ifs at hs with h1 h2
  · cases hs
    refine ⟨⟨h.laid.word hj hf (i := inum) (by rw [having_self]; exact ha) ha0 h2, congrArg (· + 1) h.used, hx⟩,
      (inum, .word j), by simp, ?_⟩
    have hself : ((m.take.wsect a ((m.data a).setWord j m.freeblock)).having inum d inum).addrs NDIRECT = a := by
      rw [having_self]
      exact ha
    simp only [hold, hself, if_pos (And.intro ha0 hj)]
    rw [show (m.take.wsect a ((m.data a).setWord j m.freeblock)).data a = (m.data a).setWord j m.freeblock from if_pos rfl,
      word_setWord hf, if_pos rfl]
    exact block_eq.2 ⟨rfl, h.laid.pos⟩
  · cases hs
    refine ⟨h, (inum, .word j), by simp, ?_⟩
    simp only [hold, having_self, ha, if_pos (And.intro ha0 hj)]
    exact block_eq.2 ⟨rfl, h2⟩

lemma Ok.appendAddr (h : m.Ok (m.having inum d)) (hfbn : fbn < MAXFILE) (hs : m.appendAddr d fbn = some (m', d', x))
    (hx : x < mkfsSuper.size) : m'.Ok (m'.having inum d') ∧ m'.Holds inum d' x ∧ m'.dinode = m.dinode := by
  unfold Mkfs.appendAddr at hs
  split_ifs at hs with h1 h2
  · cases hs
    refine ⟨h.slot h1.le h2 hx, ⟨(inum, .slot fbn), fun i hi => ?_, ?_⟩, rfl⟩
    · have := congrArg Prod.snd hi
      simp only [Place.slot.injEq] at this
      omega
    · simp only [hold, if_pos h1.le, having_self]
      exact block_eq.2 ⟨if_pos rfl, h.laid.pos⟩
  · cases hs
    refine ⟨h, ⟨(inum, .slot fbn), fun i hi => ?_, ?_⟩, rfl⟩
    · have := congrArg Prod.snd hi
      simp only [Place.slot.injEq] at this
      omega
    · simp only [hold, if_pos h1.le, having_self]
      exact block_eq.2 ⟨rfl, h2⟩
  · have hj : fbn - NDIRECT < NINDIRECT := by
      unfold MAXFILE at hfbn
      omega
    generalize hr : m.appendIndirect d = r at hs
    cases hw : r.1.appendWord (r.2.addrs NDIRECT) (fbn - NDIRECT) with
    | none =>
      simp only [hw] at hs
      cases hs
    | some v =>
      obtain ⟨m₂, x₂⟩ := v
      simp only [hw] at hs
      cases hs
      have hsize : r.2.addrs NDIRECT < mkfsSuper.size := by
        unfold Mkfs.appendWord at hw
        split_ifs at hw <;> omega
      unfold appendIndirect at hr
      split_ifs at hr with h2
      · subst hr
        have hk := h.slot le_rfl h2 (by simpa [setAddr] using hsize)
        obtain ⟨h3, h4⟩ := hk.appendWord hj rfl (by simpa [setAddr] using h.laid.pos) hw hx
        refine ⟨h3, h4, ?_⟩
        unfold Mkfs.appendWord at hw
        split_ifs at hw <;> cases hw <;> rfl
      · subst hr
        obtain ⟨h3, h4⟩ := h.appendWord hj rfl h2 hw hx
        refine ⟨h3, h4, ?_⟩
        unfold Mkfs.appendWord at hw
        split_ifs at hw <;> cases hw <;> rfl

lemma Ok.wsect (h : m.Ok (m.having inum d)) (hx : m.Holds inum d x) (b : Block) :
    (m.wsect x b).Ok ((m.wsect x b).having inum d) := by
  obtain ⟨y, hy, hhold⟩ := hx
  exact ⟨h.laid.write hhold hy b, h.used, h.fits⟩

lemma Ok.appendLoop (fuel : ℕ) (h : m.Ok (m.having inum d)) (hs : appendLoop fuel m d off p = some (m', d', k)) :
    m'.Ok (m'.having inum d') := by
  induction fuel generalizing m d off p with
  | zero =>
    cases hs
    exact h
  | succ fuel ih =>
    unfold Mkfs.appendLoop at hs
    split_ifs at hs with h1 h2
    · cases hs
      exact h
    · cases ha : m.appendAddr d (off / 512) with
      | none =>
        simp only [ha] at hs
        cases hs
      | some v =>
        obtain ⟨m₁, d₁, x⟩ := v
        simp only [ha] at hs
        split_ifs at hs with h3
        obtain ⟨hok, hx, -⟩ := h.appendAddr (by omega) ha (by omega)
        exact ih (hok.wsect hx _) hs

lemma Ok.iappend (h : m.Ok m.dinode) (hs : m.iappend inum p = some m') : m'.Ok m'.dinode := by
  have hself : m.having inum (m.dinode inum) = m.dinode := by
    funext x
    unfold having winode
    simp only
    split_ifs with hx
    · rw [hx]
    · rfl
  unfold Mkfs.iappend at hs
  split at hs
  · cases hs
  · rename_i m₁ d₁ off₁ hloop
    cases hs
    have hok := Ok.appendLoop _ (hself.symm ▸ h) hloop
    refine ⟨hok.laid.of_addrs fun i k _ => Or.inl ?_, hok.used, hok.fits⟩
    unfold having winode
    simp only
    split_ifs <;> rfl

lemma Ok.ialloc {type : Int16} (h : m.Ok m.dinode) : (m.ialloc type).Ok (m.ialloc type).dinode := by
  refine ⟨h.laid.of_addrs fun i k _ => ?_, h.used, h.fits⟩
  unfold Mkfs.ialloc winode
  simp only
  split_ifs
  · exact Or.inr rfl
  · exact Or.inl rfl

lemma Ok.foldlM {α : Type} {g : Mkfs → α → Option Mkfs} (hg : ∀ m a m', m.Ok m.dinode → g m a = some m' → m'.Ok m'.dinode)
    (l : List α) (h : m.Ok m.dinode) (hs : l.foldlM g m = some m') : m'.Ok m'.dinode := by
  induction l generalizing m with
  | nil =>
    cases hs
    exact h
  | cons a l ih =>
    rw [List.foldlM_cons] at hs
    obtain ⟨m₁, h1, h2⟩ := Option.bind_eq_some_iff.1 hs
    exact ih (hg m a m₁ h h1) h2

lemma Ok.addFile {f : HostFile} (h : m.Ok m.dinode) (hs : m.addFile f = some m') : m'.Ok m'.dinode := by
  unfold Mkfs.addFile at hs
  by_cases hslash : slash ∈ f.name
  · rw [if_pos hslash] at hs
    cases hs
  rw [if_neg hslash] at hs
  simp only at hs
  split at hs
  · cases hs
  · rename_i m₁ h1
    exact Ok.foldlM (fun m a m' hm hs => hm.iappend hs) _ (h.ialloc.iappend h1) hs

lemma ok_start : start.Ok start.dinode := by
  have hno : ∀ y, hold start.dinode start.data y = none := by
    rintro ⟨i, k | j⟩
    · simp only [hold, start, Dinode.zero]
      split_ifs <;> rfl
    · simp [hold, start, Dinode.zero]
  refine ⟨⟨⟨fun y b hy => ?_, fun y b hy => ?_, fun y z b hy => ?_⟩, by decide, fun b _ => rfl⟩, rfl, by decide⟩
  all_goals
    rw [hno] at hy
    cases hy

/-- The blocks of the inodes of an image are different ones among those that mkfs marks. -/
lemma ok_mkfs {files : List HostFile} (h : mkfs files = some m) : m.Ok m.dinode := by
  unfold mkfs at h
  obtain ⟨m₁, h1, h⟩ := Option.bind_eq_some_iff.1 h
  obtain ⟨m₂, h2, h⟩ := Option.bind_eq_some_iff.1 h
  obtain ⟨m₃, h3, h⟩ := Option.bind_eq_some_iff.1 h
  have h1 := ok_start.ialloc.iappend h1
  have h3 := Ok.foldlM (fun m f m' hm hs => hm.addFile hs) _ (h1.iappend h2) h3
  simp only at h
  split_ifs at h
  cases h
  refine ⟨h3.laid.of_addrs fun i k _ => Or.inl ?_, h3.used, h3.fits⟩
  unfold winode
  simp only
  split_ifs with hi
  · rw [hi]
  · rfl

end Mkfs

lemma MkfsImage.rest {y : Sys} (h : MkfsImage y.state) (hb : Booted y) : y.Rest False := by
  obtain ⟨files, m, -, hm, hw⟩ := h
  have hok := Mkfs.ok_mkfs hm
  have howns : SoleOwner (hold (fun i => (y.state.dinode i).used) y.state.data) (y.state.bit · = true) (dataStart y.state.sb ≤ ·) := by
    rw [hw.dinode, hw.data, hw.sb]
    refine hok.laid.owns.drop (fun _ => False) (fun x b hx => ⟨?_, not_false⟩) fun b hb _ => (hw.bit b).2 (by rw [hok.used]; exact hb)
    obtain ⟨i, x⟩ := x
    have hx : hold (fun i => (y.state.dinode i).used) y.state.data (i, x) = some b := by
      rw [hw.dinode, hw.data]
      exact hx
    rw [← hw.dinode, ← hw.data]
    exact (hold_used.1 hx).2
  refine hb.rest_of_blocks howns (fun b hb => (hw.bit b).2 ?_) ?_ fun h => absurd h not_false
  · have := hok.laid.start
    rw [hw.sb] at hb
    rw [hok.used]
    omega
  · rw [hw.sb]
    decide


namespace Mkfs

variable {m m' : Mkfs} {d d' : Dinode} {inum fbn off k x n : ℕ} {p : List UInt8}

/-- The system after boot from what mkfs has written. -/
def boot (m : Mkfs) : Sys where
  procs := [0]
  state := {
    sb := mkfsSuper
    dinode := m.dinode
    bit := fun b => decide (b < m.usedblocks)
    data := m.data
    held := []
    icache := fun ip => if ip = 0 then ⟨ROOTINO, 1, false, false, Dinode.zero⟩ else ⟨0, 0, false, false, Dinode.zero⟩
    busy := false
    logged := []
    file := fun _ => ⟨.none, 0, false, false, 0, 0⟩
    proc := fun _ => ⟨0, fun _ => none⟩
    console := fun _ => [] }

lemma start_boot {files : List HostFile} (hl : files.length + 1 < (mkfsSuper.ninodes / IPB + 1) * IPB) (hm : mkfs files = some m) :
    Start MkfsImage m.boot := by
  refine ⟨⟨rfl, rfl, fun _ => rfl, ⟨rfl, rfl, rfl⟩, fun ip hip => ?_, fun _ => ⟨rfl, rfl⟩⟩, files, m, hl, hm, rfl, rfl, rfl, fun b => ?_⟩
  · show (if ip = 0 then _ else _ : Inode).ref = 0
    rw [if_neg hip]
  · simp [boot]

/-- The contents of a file of zeros in blocks. -/
def zeros : List UInt8 := List.replicate 512 0

/-- The inode of a file of `n` blocks whose first block is `f`. -/
def fileDinode (f n : ℕ) : Dinode where
  type := T_FILE
  major := 0
  minor := 0
  nlink := 1
  size := n * 512
  addrs x := if x < n ∧ x < 12 then f + x else if x = 12 ∧ 12 < n then f + 12 else 0

/-- The indirect block of such a file, with `k` entries. -/
def indirectBlock (f : ℕ) : ℕ → Block
  | 0 => fun _ => 0
  | k + 1 => (indirectBlock f k).setWord k (f + 13 + k)

/-- The number of blocks, with the indirect block. -/
def blocks (n : ℕ) : ℕ := n + if 12 < n then 1 else 0

/-- After `n` blocks of zeros have been appended to the new inode `inum`. -/
def grown (m : Mkfs) (inum n : ℕ) : Mkfs where
  dinode x := if x = inum then fileDinode m.freeblock n else m.dinode x
  data x := if 12 < n ∧ x = m.freeblock + 12 then indirectBlock m.freeblock (n - 12) else m.data x
  freeblock := m.freeblock + blocks n
  usedblocks := m.usedblocks + blocks n
  freeinode := m.freeinode

lemma word_indirectBlock {f j : ℕ} (hf : f + 13 + k < 2 ^ 32) :
    (indirectBlock f k).word j = if j < k then f + 13 + j else 0 := by
  induction k with
  | zero => simp [indirectBlock, word_zero]
  | succ k ih =>
    rw [indirectBlock, word_setWord (by omega), ih (by omega)]
    by_cases hj : j = k
    · rw [if_pos hj, if_pos (by omega), hj]
    · rw [if_neg hj]
      by_cases hlt : j < k
      · rw [if_pos hlt, if_pos (by omega)]
      · rw [if_neg hlt, if_neg (by omega)]

lemma copy_zeros : Block.copy (fun _ => 0) off zeros = fun _ => 0 := by
  funext j
  unfold Block.copy zeros
  split_ifs
  · rw [List.getElem?_replicate]
    split_ifs <;> rfl
  · rfl

lemma length_zeros : zeros.length = 512 := List.length_replicate

/-- Bytes that fit in one block. -/
lemma appendLoop_block (hp : 0 < p.length) (hb : off / 512 < MAXFILE) (ha : m.appendAddr d (off / 512) = some (m', d', x))
    (hn : p.length ≤ (off / 512 + 1) * 512 - off) (hx : x < mkfsSuper.size) :
    appendLoop p.length m d off p =
      some (m'.wsect x ((m'.data x).copy (off - off / 512 * 512) p), d', off + p.length) := by
  obtain ⟨fuel, hfuel⟩ : ∃ fuel, p.length = fuel + 1 := ⟨p.length - 1, by omega⟩
  have hmin : min p.length ((off / 512 + 1) * 512 - off) = p.length := Nat.min_eq_left hn
  have hend : ∀ (m : Mkfs) (d : Dinode) (off : ℕ), appendLoop fuel m d off [] = some (m, d, off) := by
    intro m d off
    cases fuel <;> rfl
  rw [hfuel, appendLoop, if_neg (by omega), if_neg (by omega), ha]
  simp only [← hfuel, hmin, if_neg (Nat.not_le.2 hx), List.take_length, List.drop_length, hend]

variable (inum) in
/-- The address that `iappend` finds for the next block of zeros. -/
lemma appendAddr_grown (hblank : ∀ b, m.freeblock ≤ b → m.data b = fun _ => 0) (hf : m.freeblock + 141 ≤ mkfsSuper.size)
    (h0 : 0 < m.freeblock) (hn : n < MAXFILE) : ∃ m' d' x, (m.grown inum n).appendAddr (fileDinode m.freeblock n) n = some (m', d', x) ∧
      x < mkfsSuper.size ∧ m'.data x = (fun _ => 0) ∧
      m'.winode inum { d' with size := n * 512 + 512 } = m.grown inum (n + 1) := by
  have hsize : mkfsSuper.size = 1024 := by simp [mkfsSuper]
  have hn : n < 140 := by simpa [MAXFILE, NDIRECT, NINDIRECT] using hn
  -- the new state is right if the addresses, the data and the counters are
  have hfinal : ∀ (m' : Mkfs) (d : Dinode), m'.dinode = (m.grown inum n).dinode → m'.freeinode = m.freeinode →
      (∀ i, d.addrs i = (fileDinode m.freeblock (n + 1)).addrs i) → d.type = T_FILE → d.major = 0 → d.minor = 0 → d.nlink = 1 →
      (∀ c, m'.data c = (m.grown inum (n + 1)).data c) → m'.freeblock = m.freeblock + blocks (n + 1) →
      m'.usedblocks = m.usedblocks + blocks (n + 1) → m'.winode inum { d with size := n * 512 + 512 } = m.grown inum (n + 1) := by
    intro m' d hm hi ha h1 h2 h3 h4 hdata hfree hused
    have hd : { d with size := n * 512 + 512 } = fileDinode m.freeblock (n + 1) := by
      rw [h1, h2, h3, h4, funext ha, show n * 512 + 512 = (n + 1) * 512 by omega]
      rfl
    refine Mkfs.ext (funext fun x => ?_) (funext hdata) hfree hused hi
    rw [hd]
    show (if x = inum then _ else m'.dinode x) = if x = inum then _ else m.dinode x
    rw [hm]
    by_cases hx : x = inum
    · rw [if_pos hx, if_pos hx]
    · rw [if_neg hx, if_neg hx]
      exact if_neg hx
  rcases Nat.lt_trichotomy n 12 with hlt | rfl | hgt
  · -- a direct block
    have hz : (fileDinode m.freeblock n).addrs n = 0 := by simp [fileDinode, hlt.ne]
    have hfree : (m.grown inum n).freeblock = m.freeblock + n := by simp [grown, blocks, hlt.le]
    have hdata : ∀ c, (m.grown inum n).data c = m.data c := fun c => if_neg fun h => absurd h.1 (by omega)
    refine ⟨(m.grown inum n).take, setAddr (fileDinode m.freeblock n) n (m.freeblock + n), m.freeblock + n, ?_, by omega, ?_, ?_⟩
    · rw [appendAddr, if_pos (show n < NDIRECT from hlt), if_pos hz, hfree]
    · exact (hdata _).trans (hblank _ (by omega))
    · refine hfinal _ _ rfl rfl (fun i => ?_) rfl rfl rfl rfl (fun c => ?_) ?_ ?_
      · simp only [setAddr, fileDinode]
        split_ifs <;> omega
      · refine (hdata c).trans (if_neg fun h => absurd h.1 (by omega)).symm
      · simp only [take, grown, blocks]
        split_ifs <;> omega
      · simp only [take, grown, blocks]
        split_ifs <;> omega
  · -- the first block behind the direct ones
    have hz : (fileDinode m.freeblock 12).addrs NDIRECT = 0 := by simp [fileDinode, NDIRECT]
    have hfree : (m.grown inum 12).freeblock = m.freeblock + 12 := by simp [grown, blocks]
    have hdata : ∀ c, (m.grown inum 12).data c = m.data c := fun c => by simp [grown]
    have hind : (m.grown inum 12).appendIndirect (fileDinode m.freeblock 12) =
        ((m.grown inum 12).take, setAddr (fileDinode m.freeblock 12) NDIRECT (m.freeblock + 12)) := by
      rw [appendIndirect, if_pos hz, hfree]
    have hblock : (m.grown inum 12).take.data (m.freeblock + 12) = fun _ => 0 := (hdata _).trans (hblank _ (by omega))
    have hword : (m.grown inum 12).take.appendWord (m.freeblock + 12) (12 - NDIRECT) =
        some ((m.grown inum 12).take.take.wsect (m.freeblock + 12) (Block.setWord (fun _ => 0) 0 (m.freeblock + 13)),
          m.freeblock + 13) := by
      rw [appendWord, if_neg (by omega), hblock, word_zero, if_pos rfl, show 12 - NDIRECT = 0 from rfl,
        show (m.grown inum 12).take.freeblock = m.freeblock + 13 by rw [take, hfree]]
    refine ⟨(m.grown inum 12).take.take.wsect (m.freeblock + 12) (Block.setWord (fun _ => 0) 0 (m.freeblock + 13)),
      setAddr (fileDinode m.freeblock 12) NDIRECT (m.freeblock + 12), m.freeblock + 13, ?_, by omega, ?_, ?_⟩
    · have haddr : (setAddr (fileDinode m.freeblock 12) NDIRECT (m.freeblock + 12)).addrs NDIRECT = m.freeblock + 12 := by
        simp [setAddr]
      rw [appendAddr, if_neg (by decide), hind]
      simp only [haddr, hword]
    · exact (if_neg (by omega)).trans ((hdata _).trans (hblank _ (by omega)))
    · refine hfinal _ _ rfl rfl (fun i => ?_) rfl rfl rfl rfl (fun c => ?_) ?_ ?_
      · simp only [setAddr, fileDinode, NDIRECT]
        grind
      · show (if c = m.freeblock + 12 then _ else (m.grown inum 12).data c) = if 12 < 13 ∧ c = m.freeblock + 12 then _ else m.data c
        rw [hdata]
        by_cases hc : c = m.freeblock + 12
        · rw [if_pos hc, if_pos ⟨by decide, hc⟩]
          rfl
        · rw [if_neg hc, if_neg fun h => hc h.2]
      · simp [wsect, take, grown, blocks]
      · simp [wsect, take, grown, blocks]
  · have ha : (fileDinode m.freeblock n).addrs NDIRECT = m.freeblock + 12 := by simp [fileDinode, NDIRECT, hgt]
    have hfree : (m.grown inum n).freeblock = m.freeblock + n + 1 := by simp [grown, blocks, hgt, Nat.add_assoc]
    have hdata : (m.grown inum n).data (m.freeblock + 12) = indirectBlock m.freeblock (n - 12) := if_pos ⟨hgt, rfl⟩
    have hind : (m.grown inum n).appendIndirect (fileDinode m.freeblock n) = (m.grown inum n, fileDinode m.freeblock n) := by
      rw [appendIndirect, if_neg (by omega)]
    have hword : (m.grown inum n).appendWord (m.freeblock + 12) (n - NDIRECT) =
        some ((m.grown inum n).take.wsect (m.freeblock + 12) (indirectBlock m.freeblock (n + 1 - 12)), m.freeblock + n + 1) := by
      have hz : (indirectBlock m.freeblock (n - 12)).word (n - NDIRECT) = 0 := by
        rw [word_indirectBlock (by omega), if_neg (by simp [NDIRECT])]
      rw [appendWord, if_neg (by omega), hdata, hz, if_pos rfl, hfree, show n + 1 - 12 = n - 12 + 1 by omega, indirectBlock,
        show m.freeblock + 13 + (n - 12) = m.freeblock + n + 1 by omega]
      rfl
    refine ⟨(m.grown inum n).take.wsect (m.freeblock + 12) (indirectBlock m.freeblock (n + 1 - 12)), fileDinode m.freeblock n,
      m.freeblock + n + 1, ?_, by omega, ?_, ?_⟩
    · rw [appendAddr, if_neg (show ¬ n < NDIRECT by simp [NDIRECT]; omega), hind]
      simp only [ha, hword]
    · refine (if_neg (by omega)).trans ((if_neg (by omega)).trans (hblank _ (by omega)))
    · refine hfinal _ _ rfl rfl (fun i => ?_) rfl rfl rfl rfl (fun c => ?_) ?_ ?_
      · simp only [fileDinode]
        split_ifs <;> omega
      · show (if c = m.freeblock + 12 then _ else if 12 < n ∧ c = m.freeblock + 12 then _ else m.data c) =
          if 12 < n + 1 ∧ c = m.freeblock + 12 then _ else m.data c
        by_cases hc : c = m.freeblock + 12
        · rw [if_pos hc, if_pos ⟨by omega, hc⟩]
        · rw [if_neg hc, if_neg fun h => hc h.2, if_neg fun h => hc h.2]
      · simp only [wsect, take, grown, blocks]
        split_ifs <;> omega
      · simp only [wsect, take, grown, blocks]
        split_ifs <;> omega

lemma iappend_zeros (hblank : ∀ b, m.freeblock ≤ b → m.data b = fun _ => 0) (hf : m.freeblock + 141 ≤ mkfsSuper.size)
    (h0 : 0 < m.freeblock) (hn : n < MAXFILE) : (m.grown inum n).iappend inum zeros = some (m.grown inum (n + 1)) := by
  obtain ⟨m', d', x, ha, hx, hz, hend⟩ := appendAddr_grown inum hblank hf h0 hn
  have hself : (m.grown inum n).dinode inum = fileDinode m.freeblock n := if_pos rfl
  have hdiv : n * 512 / 512 = n := Nat.mul_div_cancel n (by decide)
  rw [← hdiv] at ha hn
  have hlast := appendLoop_block (p := zeros) (by rw [length_zeros]; decide) hn ha
    (by rw [length_zeros, hdiv]; omega) hx
  have hsame : m'.wsect x (fun _ => 0) = m' := by
    refine Mkfs.ext rfl (funext fun c => ?_) rfl rfl rfl
    show (if c = x then _ else m'.data c) = m'.data c
    split_ifs with hc
    · rw [hc, hz]
    · rfl
  rw [hz, copy_zeros, hsame, length_zeros] at hlast
  rw [hdiv] at hlast
  unfold iappend
  rw [hself, length_zeros, show (fileDinode m.freeblock n).size = n * 512 from rfl, hlast]
  exact congrArg some hend

/-- A file of `n` blocks of zeros. -/
def zeroFile (c : UInt8) (n : ℕ) : HostFile := ⟨[c], List.replicate n zeros⟩

lemma foldlM_zeros (hblank : ∀ b, m.freeblock ≤ b → m.data b = fun _ => 0) (hf : m.freeblock + 141 ≤ mkfsSuper.size)
    (h0 : 0 < m.freeblock) (hn : n ≤ MAXFILE) :
    (List.replicate n zeros).foldlM (fun m p => m.iappend inum p) (m.grown inum 0) = some (m.grown inum n) := by
  induction n with
  | zero => rfl
  | succ n ih =>
    rw [List.replicate_succ', List.foldlM_append, ih (by omega)]
    rw [Option.bind_eq_bind, Option.bind_some, List.foldlM_cons, iappend_zeros hblank hf h0 (by omega)]
    rfl

/-- After an entry has been appended to the root directory, which is in block `a`. -/
def entered (m : Mkfs) (a : ℕ) (p : List UInt8) : Mkfs :=
  (m.wsect a ((m.data a).copy (m.dinode ROOTINO).size p)).winode ROOTINO
    { m.dinode ROOTINO with size := (m.dinode ROOTINO).size + p.length }

lemma iappend_root {a : ℕ} (hp : p.length = DIRENT) (ha : (m.dinode ROOTINO).addrs 0 = a) (ha0 : a ≠ 0) (hsize : a < mkfsSuper.size)
    (hroom : (m.dinode ROOTINO).size + DIRENT ≤ 512) : m.iappend ROOTINO p = some (m.entered a p) := by
  have hd : DIRENT = 16 := rfl
  have h0 : (m.dinode ROOTINO).size / 512 = 0 := Nat.div_eq_of_lt (by omega)
  have haddr : m.appendAddr (m.dinode ROOTINO) ((m.dinode ROOTINO).size / 512) = some (m, m.dinode ROOTINO, a) := by
    rw [h0, appendAddr, if_pos (by decide), if_neg (by rw [ha]; exact ha0), ha]
  have hblock := appendLoop_block (p := p) (by omega) (by rw [h0]; decide) haddr (by omega) hsize
  rw [h0, Nat.zero_mul, Nat.sub_zero] at hblock
  rw [iappend, hblock]
  rfl

/-- After a file of zeros has been added. -/
def added (m : Mkfs) (a : ℕ) (c : UInt8) (n : ℕ) : Mkfs :=
  ((m.ialloc T_FILE).entered a (Dirent.toBytes m.freeinode [c])).grown m.freeinode n

lemma length_toBytes {i : ℕ} {name : Name} : (Dirent.toBytes i name).length = DIRENT := by
  have h : (cname name).length ≤ DIRSIZ := (List.takeWhile_sublist _).length_le.trans (List.length_take_le _ _)
  unfold Dirent.toBytes
  simp only [List.length_append, List.length_replicate, List.length_cons, List.length_nil]
  unfold DIRENT DIRSIZ at *
  omega

lemma addFile_zeroFile {a : ℕ} {c : UInt8} (hok : m.Ok m.dinode) (hc : c ≠ slash) (hc' : c ≠ 95) (hf : m.freeblock + 141 ≤ mkfsSuper.size)
    (hi : m.freeinode ≠ ROOTINO) (ha : (m.dinode ROOTINO).addrs 0 = a) (ha0 : a ≠ 0) (hsize : a < m.freeblock)
    (hroom : (m.dinode ROOTINO).size + DIRENT ≤ 512) (hn : n ≤ MAXFILE) : m.addFile (zeroFile c n) = some (m.added a c n) := by
  have hroot : (m.ialloc T_FILE).dinode ROOTINO = m.dinode ROOTINO := if_neg (Ne.symm hi)
  have henter := iappend_root (m := m.ialloc T_FILE) (p := Dirent.toBytes m.freeinode [c]) length_toBytes (hroot ▸ ha) ha0
    (by omega) (hroot ▸ hroom)
  have hgrown : ∀ m' : Mkfs, m'.dinode m.freeinode = { Dinode.zero with type := T_FILE, nlink := 1 } →
      m'.grown m.freeinode 0 = m' := by
    intro m' hm'
    refine Mkfs.ext (funext fun x => ?_) (funext fun c => by simp [grown]) rfl rfl rfl
    show (if x = m.freeinode then fileDinode _ 0 else m'.dinode x) = _
    split_ifs with hx
    · rw [hx, hm', fileDinode, Dinode.zero]
      congr 1
      funext i
      simp
    · rfl
  have hname : (zeroFile c n).name = [c] := rfl
  unfold addFile
  rw [if_neg (by simp [hname, Ne.symm hc]), hname, if_neg (by simpa using hc')]
  simp only [henter]
  rw [← hgrown ((m.ialloc T_FILE).entered a (Dirent.toBytes m.freeinode [c]))]
  · refine foldlM_zeros (fun b hb => ?_) hf (lt_of_le_of_lt (Nat.zero_le _) hsize) hn
    have hb : m.freeblock ≤ b := hb
    refine (if_neg (by omega)).trans (hok.laid.blank b hb)
  · show (if m.freeinode = ROOTINO then _ else if m.freeinode = m.freeinode then _ else _) = _
    rw [if_neg hi, if_pos rfl]

/-- Whether the file fits when the root directory is in block `a`. -/
def Fits (m : Mkfs) (a : ℕ) (f : UInt8 × ℕ) : Prop :=
  f.1 ≠ slash ∧ f.1 ≠ 95 ∧ m.freeblock + 141 ≤ mkfsSuper.size ∧ m.freeinode ≠ ROOTINO ∧ (m.dinode ROOTINO).addrs 0 = a ∧
    a < m.freeblock ∧ (m.dinode ROOTINO).size + DIRENT ≤ 512 ∧ f.2 ≤ MAXFILE

instance (m : Mkfs) (a : ℕ) (f : UInt8 × ℕ) : Decidable (m.Fits a f) := by
  unfold Fits
  infer_instance

def fitsAll (a : ℕ) : Mkfs → List (UInt8 × ℕ) → Bool
  | _, [] => true
  | m, f :: l => m.Fits a f && fitsAll a (m.added a f.1 f.2) l

lemma foldlM_zeroFiles {a : ℕ} (ha0 : a ≠ 0) (l : List (UInt8 × ℕ)) (hok : m.Ok m.dinode) (h : fitsAll a m l = true) :
    (l.map fun f => zeroFile f.1 f.2).foldlM addFile m = some (l.foldl (fun m f => m.added a f.1 f.2) m) := by
  induction l generalizing m with
  | nil => rfl
  | cons f l ih =>
    simp only [fitsAll, Bool.and_eq_true, decide_eq_true_eq] at h
    obtain ⟨⟨h1, h2, h3, h4, h5, h6, h7, h8⟩, hl⟩ := h
    have hadd := addFile_zeroFile hok h1 h2 h3 h4 h5 ha0 h6 h7 h8
    rw [List.map_cons, List.foldlM_cons, hadd]
    exact ih (hok.addFile hadd) hl

/-- The root directory with `.` and `..`. -/
def empty : Option Mkfs :=
  ((start.ialloc T_DIR).iappend ROOTINO (Dirent.toBytes ROOTINO dot)).bind fun m =>
    m.iappend ROOTINO (Dirent.toBytes ROOTINO dotdot)

/-- The names and numbers of blocks of files that fill the disk. -/
def fillers : List (UInt8 × ℕ) := [(97, 140), (98, 140), (99, 140), (100, 140), (101, 140), (102, 140), (103, 137)]

/-- The end of `main`. -/
def finish (m : Mkfs) : Mkfs :=
  m.winode ROOTINO { m.dinode ROOTINO with size := ((m.dinode ROOTINO).size / BSIZE + 1) * BSIZE }

/-- The image with the files of a list. -/
def filled (l : List (UInt8 × ℕ)) : Mkfs := finish (l.foldl (fun m f => m.added 29 f.1 f.2) (empty.getD start))

lemma mkfs_filled {l : List (UInt8 × ℕ)} (h : fitsAll 29 (empty.getD start) l = true) (hu : (filled l).usedblocks < 512 * 8) :
    mkfs (l.map fun f => zeroFile f.1 f.2) = some (filled l) := by
  have hsome : empty.isSome = true := by decide +kernel
  obtain ⟨m₂, he⟩ := Option.isSome_iff_exists.1 hsome
  obtain ⟨m₁, h1, h2⟩ := Option.bind_eq_some_iff.1 he
  have hok : m₂.Ok m₂.dinode := (ok_start.ialloc.iappend h1).iappend h2
  have hget : empty.getD start = m₂ := by rw [he]; rfl
  rw [hget] at h
  have hfold := foldlM_zeroFiles (by decide) l hok h
  unfold filled at hu ⊢
  rw [hget] at hu ⊢
  unfold mkfs
  rw [h1, Option.bind_eq_bind, Option.bind_some, h2, Option.bind_some, hfold, Option.bind_some]
  exact if_pos hu

end Mkfs

/-- A new directory in the root. -/
def newDir : ℕ × Call := (0, .mkdir (some [120]))

/-- Whether an action marks a block of the log. -/
def marksLog (b : ℕ) (s s' : State) : Bool := s.bit b = false ∧ s'.bit b = true ∧ ¬ DataArea s.sb b

end Files

end Os132

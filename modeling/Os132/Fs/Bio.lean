import Os132.Lib.Crash
import Os132.Lib.Run

/-!
# The buffer cache (bio.c, ide.c)

`NBUF` buffers in most-recently-used order hold copies of disk sectors. `bread` returns a busy
buffer with the contents of a sector, `bwrite` writes a buffer out, `brelse` gives it back; a dirty
buffer is not recycled. The disk is the image found at power-on and the sector writes issued since,
in order. A program stops at a panic, and where it would sleep for a buffer that its own caller
holds.
-/

namespace Os132

namespace Fs

/-- The contents of a sector, as 32-bit words. -/
abbrev Block := ℕ → ℕ

abbrev Disk := ℕ → Block

/-- Word `i` of a block becomes `v`. -/
def Block.set (b : Block) (i v : ℕ) : Block := fun j => if j = i then v else b j

/-- One sector write. -/
def Disk.put (d : Disk) (w : ℕ × Block) : Disk := fun x => if x = w.1 then w.2 else d x

/-- The disk after these sector writes, first one first. -/
def Disk.replay (d : Disk) (ws : List (ℕ × Block)) : Disk := ws.foldl Disk.put d

@[simp] lemma Disk.replay_nil (d : Disk) : d.replay [] = d := rfl

lemma Disk.replay_append (d : Disk) (ws vs : List (ℕ × Block)) :
    d.replay (ws ++ vs) = (d.replay ws).replay vs := List.foldl_append

@[simp] lemma Disk.replay_snoc (d : Disk) (ws : List (ℕ × Block)) (w : ℕ × Block) :
    d.replay (ws ++ [w]) = (d.replay ws).put w := by
  rw [replay_append]
  rfl

@[simp] lemma Disk.put_self (d : Disk) (x : ℕ) (b : Block) : d.put (x, b) x = b := if_pos rfl

lemma Disk.put_of_ne (d : Disk) {x y : ℕ} (b : Block) (h : y ≠ x) : d.put (x, b) y = d y := if_neg h

def NBUF : ℕ := 10

def ROOTDEV : ℕ := 1

inductive Stop where
  | panic (msg : String)
  /-- asleep on a buffer or on the log -/
  | asleep
  /-- a caller names a buffer that it does not hold -/
  | misuse
  deriving DecidableEq

/-- `struct buf`: the flags `B_BUSY`, `B_VALID`, `B_DIRTY`, the sector and its contents. -/
structure Buf where
  busy : Bool
  valid : Bool
  dirty : Bool
  dev : ℕ
  sector : ℕ
  data : Block

/-- `struct logheader` -/
structure Header where
  n : ℕ
  sector : ℕ → ℕ

/-- The disk, the buffer cache and the fields of `log` that change. `order` lists the buffers from
`bcache.head.next` on. -/
structure Store where
  image : Disk
  issued : List (ℕ × Block)
  havedisk1 : Bool
  buf : ℕ → Buf
  order : List ℕ
  busy : Bool
  lh : Header

namespace Store

def disk (s : Store) : Disk := s.image.replay s.issued

def setBuf (s : Store) (i : ℕ) (b : Buf) : Store :=
  { s with buf := fun j => if j = i then b else s.buf j }

@[simp] lemma setBuf_self (s : Store) (i : ℕ) (b : Buf) : (s.setBuf i b).buf i = b := if_pos rfl

lemma setBuf_of_ne (s : Store) {i j : ℕ} (b : Buf) (h : j ≠ i) : (s.setBuf i b).buf j = s.buf j := if_neg h

@[simp] lemma setBuf_disk (s : Store) (i : ℕ) (b : Buf) : (s.setBuf i b).disk = s.disk := rfl

@[simp] lemma setBuf_issued (s : Store) (i : ℕ) (b : Buf) : (s.setBuf i b).issued = s.issued := rfl

end Store

/-- The state after `binit`, on a disk with these contents. -/
def binit (image : Disk) (havedisk1 : Bool) : Store where
  image := image
  issued := []
  havedisk1 := havedisk1
  buf := fun _ => ⟨false, false, false, 2 ^ 32 - 1, 0, fun _ => 0⟩
  order := (List.range NBUF).reverse
  busy := false
  lh := ⟨0, fun _ => 0⟩

abbrev Op := EStateM Stop Store

/-- `bget`. A sleeper would find the buffer released by another process; here its caller holds it. -/
def bget (dev sector : ℕ) : Op ℕ := do
  let s ← get
  match s.order.find? fun i => (s.buf i).dev = dev ∧ (s.buf i).sector = sector with
  | some i =>
    if (s.buf i).busy then throw .asleep
    else
      modify fun s => s.setBuf i { s.buf i with busy := true }
      return i
  | none =>
    match s.order.reverse.find? fun i => ¬ (s.buf i).busy ∧ ¬ (s.buf i).dirty with
    | some i =>
      modify fun s => s.setBuf i { s.buf i with
        busy := true, valid := false, dirty := false, dev := dev, sector := sector }
      return i
    | none => throw (.panic "bget: no buffers")

/-- `iderw`, up to the completion of the request by `ideintr`. -/
def iderw (i : ℕ) : Op Unit := do
  let s ← get
  if ¬ (s.buf i).busy then throw (.panic "iderw: buf not busy")
  else if (s.buf i).valid ∧ ¬ (s.buf i).dirty then throw (.panic "iderw: nothing to do")
  else if (s.buf i).dev ≠ 0 ∧ ¬ s.havedisk1 then throw (.panic "iderw: ide disk 1 not present")
  else if (s.buf i).dirty then
    modify fun s =>
      { s.setBuf i { s.buf i with valid := true, dirty := false } with
        issued := s.issued ++ [((s.buf i).sector, (s.buf i).data)] }
  else modify fun s => s.setBuf i { s.buf i with valid := true, data := s.disk (s.buf i).sector }

def bread (dev sector : ℕ) : Op ℕ := do
  let i ← bget dev sector
  let s ← get
  if (s.buf i).valid then return i
  else
    iderw i
    return i

def bwrite (i : ℕ) : Op Unit := do
  let s ← get
  if ¬ (s.buf i).busy then throw (.panic "bwrite")
  else
    modify fun s => s.setBuf i { s.buf i with dirty := true }
    iderw i

def brelse (i : ℕ) : Op Unit := do
  let s ← get
  if ¬ (s.buf i).busy then throw (.panic "brelse")
  else modify fun s => { s.setBuf i { s.buf i with busy := false } with order := i :: s.order.erase i }

/-- The caller stores `b` at `b->data`. -/
def setData (i : ℕ) (b : Block) : Op Unit := modify fun s => s.setBuf i { s.buf i with data := b }

/-- `memmove(b->data, ...); bwrite(b)` -/
def overwrite (i : ℕ) (b : Block) : Op Unit := do
  setData i b
  bwrite i

/-! ### The cache and a part of the disk that only the log uses -/

/-- `log.start` and `log.size`, as `initlog` computes them; the log has room for its header. -/
structure Layout where
  start : ℕ
  size : ℕ
  size_pos : 0 < size

/-- A sector outside the log region. -/
def Layout.Home (L : Layout) (x : ℕ) : Prop := x < L.start ∨ L.start + L.size ≤ x

instance (L : Layout) (x : ℕ) : Decidable (L.Home x) := inferInstanceAs (Decidable (_ ∨ _))

/-- What holds of the cache at every point: a sector of the root device has at most one
buffer, and a valid buffer of a log sector agrees with the disk. -/
structure Coherent (L : Layout) (s : Store) : Prop where
  order : ∀ i, i ∈ s.order ↔ i < NBUF
  unique : ∀ i j, i < NBUF → j < NBUF → (s.buf i).dev = ROOTDEV → (s.buf j).dev = ROOTDEV →
    (s.buf i).sector = (s.buf j).sector → i = j
  dirty : ∀ i, i < NBUF → (s.buf i).dirty = true → (s.buf i).valid = true
  log : ∀ i, i < NBUF → (s.buf i).dev = ROOTDEV → ¬ L.Home (s.buf i).sector → (s.buf i).valid = true →
    (s.buf i).data = s.disk (s.buf i).sector

variable {L : Layout}

lemma Coherent.binit (d : Disk) (h : Bool) : Coherent L (binit d h) where
  order := by simp [Fs.binit]
  unique i j hi hj hd := by
    have : (2 : ℕ) ^ 32 - 1 = 1 := hd
    omega
  dirty i hi hd := by simp [Fs.binit] at hd
  log i hi hd := by
    have : (2 : ℕ) ^ 32 - 1 = 1 := hd
    omega

/-- Buffer `i` is held and caches `sector`. -/
structure Held (s : Store) (i sector : ℕ) : Prop where
  lt : i < NBUF
  busy : (s.buf i).busy = true
  dev : (s.buf i).dev = ROOTDEV
  sector : (s.buf i).sector = sector
  valid : (s.buf i).valid = true

lemma Held.eq {s : Store} {i j sector : ℕ} (hc : Coherent L s) (h : Held s i sector) (h' : Held s j sector) : i = j :=
  hc.unique i j h.lt h'.lt h.dev h'.dev (h.sector.trans h'.sector.symm)

lemma Held.of_buf {s s' : Store} {i sector : ℕ} (h : Held s i sector) (hb : s'.buf i = s.buf i) :
    Held s' i sector := ⟨h.lt, by rw [hb, h.busy], by rw [hb, h.dev], by rw [hb, h.sector], by rw [hb, h.valid]⟩

/-- What a step of the cache leaves alone. -/
structure Same (s s' : Store) : Prop where
  image : s'.image = s.image
  havedisk1 : s'.havedisk1 = s.havedisk1
  busy : s'.busy = s.busy
  lh : s'.lh = s.lh

lemma Same.refl (s : Store) : Same s s := ⟨rfl, rfl, rfl, rfl⟩

lemma Same.trans {s s' s'' : Store} (h : Same s s') (h' : Same s' s'') : Same s s'' :=
  ⟨h'.image.trans h.image, h'.havedisk1.trans h.havedisk1, h'.busy.trans h.busy, h'.lh.trans h.lh⟩

section setBuf

variable {s : Store} {i : ℕ} {b : Buf}

/-- A buffer may be replaced by one for a sector that no other buffer has. -/
lemma Coherent.setBuf (hc : Coherent L s)
    (hu : ∀ j, j < NBUF → j ≠ i → (s.buf j).dev = ROOTDEV → b.dev = ROOTDEV → (s.buf j).sector ≠ b.sector)
    (hd : b.dirty = true → b.valid = true)
    (hl : b.dev = ROOTDEV → ¬ L.Home b.sector → b.valid = true → b.data = s.disk b.sector) :
    Coherent L (s.setBuf i b) := by
  refine ⟨hc.order, fun j k hj hk hdj hdk hjk => ?_, fun j hj hdj => ?_, fun j hj hdj hlj hvj => ?_⟩
  · by_cases hji : j = i <;> by_cases hki : k = i
    · rw [hji, hki]
    · subst hji
      rw [Store.setBuf_of_ne _ _ hki] at hdk hjk
      rw [Store.setBuf_self] at hdj hjk
      exact absurd hjk.symm (hu k hk hki hdk hdj)
    · subst hki
      rw [Store.setBuf_of_ne _ _ hji] at hdj hjk
      rw [Store.setBuf_self] at hdk hjk
      exact absurd hjk (hu j hj hji hdj hdk)
    · rw [Store.setBuf_of_ne _ _ hji] at hdj hjk
      rw [Store.setBuf_of_ne _ _ hki] at hdk hjk
      exact hc.unique j k hj hk hdj hdk hjk
  · by_cases hji : j = i
    · subst hji
      rw [Store.setBuf_self] at hdj ⊢
      exact hd hdj
    · rw [Store.setBuf_of_ne _ _ hji] at hdj ⊢
      exact hc.dirty j hj hdj
  · by_cases hji : j = i
    · subst hji
      rw [Store.setBuf_self] at hdj hlj hvj ⊢
      exact hl hdj hlj hvj
    · rw [Store.setBuf_of_ne _ _ hji] at hdj hlj hvj ⊢
      exact hc.log j hj hdj hlj hvj

lemma Coherent.keep (hc : Coherent L s) (hi : i < NBUF) (hdev : b.dev = (s.buf i).dev)
    (hsec : b.sector = (s.buf i).sector) (hd : b.dirty = true → b.valid = true)
    (hl : b.dev = ROOTDEV → ¬ L.Home b.sector → b.valid = true → b.data = s.disk b.sector) :
    Coherent L (s.setBuf i b) := by
  refine hc.setBuf (fun j hj hji hdj hdb hjk => ?_) hd hl
  exact hji (hc.unique j i hj hi hdj (by rw [← hdev, hdb]) (by rw [hjk, hsec]))

end setBuf

/-- Between the calls of bio.c a buffer that is held is also valid. -/
structure Cache (L : Layout) (s : Store) : Prop extends Coherent L s where
  held : ∀ i, i < NBUF → (s.buf i).busy = true → (s.buf i).valid = true

lemma Cache.binit (d : Disk) (h : Bool) : Cache L (binit d h) :=
  ⟨Coherent.binit d h, fun i _ hb => by simp [Fs.binit] at hb⟩

/-- After `bread`: the sector's buffer is held, which nobody held, and every other one is as it was. -/
structure Bread (L : Layout) (s : Store) (sector i : ℕ) (s' : Store) : Prop where
  same : Same s s'
  own : Held s' i sector
  cache : Cache L s'
  issued : s'.issued = s.issued
  free : (s.buf i).busy = false
  clean : (s'.buf i).dirty = true → (s.buf i).dirty = true
  others : ∀ j, j ≠ i → s'.buf j = s.buf j

namespace Bread

variable {s s' : Store} {sector i : ℕ}

lemma disk (h : Bread L s sector i s') : s'.disk = s.disk := by
  rw [Store.disk, h.same.image, h.issued]
  rfl

lemma data (h : Bread L s sector i s') (hl : ¬ L.Home sector) : (s'.buf i).data = s.disk sector := by
  have := h.cache.log i h.own.lt h.own.dev (by rw [h.own.sector]; exact hl) h.own.valid
  rwa [h.own.sector, h.disk] at this

lemma other {j x : ℕ} (h : Bread L s sector i s') (hj : Held s j x) : Held s' j x ∧ j ≠ i := by
  have hji : j ≠ i := by
    intro hji
    have := hj.busy
    rw [hji, h.free] at this
    exact Bool.noConfusion this
  exact ⟨hj.of_buf (h.others j hji), hji⟩

end Bread

/-- The program's record is the list of writes issued. -/
abbrev wp {α : Type} (crash : List (ℕ × Block) → Prop) (x : Op α) (s : Store) (post : α → Store → Prop) : Prop :=
  Crash.wp Store.issued crash x s post

variable {crash : List (ℕ × Block) → Prop} {s : Store}

open Crash

/-- The middle of `bread`: a buffer that is valid is returned, another one is read from the disk. -/
lemma bread_fill (hc : Coherent L s) (sector : ℕ) {i : ℕ} (hi : i < NBUF) (hcr : crash s.issued)
    (hb : (s.buf i).busy = true) (hdev : (s.buf i).dev = ROOTDEV) (hsec : (s.buf i).sector = sector) :
    wp crash (do
      let s ← get
      if (s.buf i).valid then return i
      else
        iderw i
        return i) s
      fun j s' => j = i ∧ Same s s' ∧ Held s' i sector ∧ Coherent L s' ∧ s'.issued = s.issued ∧
        ((s'.buf i).dirty = true → (s.buf i).dirty = true) ∧ ∀ j, j ≠ i → s'.buf j = s.buf j := by
  apply wp_get_bind
  split
  · rename_i hv
    exact wp_pure hcr ⟨rfl, Same.refl s, ⟨hi, hb, hdev, hsec, hv⟩, hc, rfl, id, fun _ _ => rfl⟩
  · rename_i hv
    have hnd : (s.buf i).dirty = false := by
      by_contra hd
      exact hv (hc.dirty i hi (by simpa using hd))
    apply wp_bind
    unfold iderw
    apply wp_get_bind
    rw [if_neg (by simp [hb]), if_neg (by simp [hv])]
    split
    · exact wp_throw hcr
    · rw [if_neg (by simp [hnd])]
      refine wp_modify hcr rfl (wp_pure hcr ?_)
      refine ⟨rfl, ⟨rfl, rfl, rfl, rfl⟩, ⟨hi, ?_, ?_, ?_, ?_⟩, ?_, rfl, ?_, ?_⟩
      · simpa using hb
      · simpa using hdev
      · simpa using hsec
      · simp
      · exact hc.keep hi rfl rfl (by simp) (fun _ _ _ => rfl)
      · simp
      · intro j hj
        exact Store.setBuf_of_ne _ _ hj

lemma held_of_others {s s' : Store} {b : Buf} {k sector : ℕ} (hc : Cache L s) (hown : Held s' k sector)
    (hrest : ∀ j, j ≠ k → s'.buf j = (s.setBuf k b).buf j) :
    ∀ i, i < NBUF → (s'.buf i).busy = true → (s'.buf i).valid = true := by
  intro i hi hb
  by_cases hik : i = k
  · rw [hik, hown.valid]
  · rw [hrest i hik, Store.setBuf_of_ne _ _ hik] at hb ⊢
    exact hc.held i hi hb

lemma bread_wp (hc : Cache L s) (sector : ℕ) (hcr : crash s.issued) :
    wp crash (bread ROOTDEV sector) s (Bread L s sector) := by
  apply wp_bind
  unfold bget
  apply wp_get_bind
  split
  · -- the sector is cached
    rename_i i hfind
    obtain ⟨hdev, hsec⟩ := by simpa using List.find?_some hfind
    have hlt := (hc.order i).1 (List.mem_of_find?_eq_some hfind)
    split
    · exact wp_throw hcr
    · rename_i hnb
      have hnb : (s.buf i).busy = false := by simpa using hnb
      apply wp_bind
      refine wp_modify hcr rfl (wp_pure hcr ?_)
      have hc' : Coherent L (s.setBuf i { s.buf i with busy := true }) :=
        hc.keep hlt rfl rfl (hc.dirty i hlt) (hc.log i hlt)
      refine (bread_fill hc' sector hlt hcr (by simp) (by simpa using hdev) (by simpa using hsec)).mono ?_
      rintro k s' ⟨rfl, hsame, hown, hcache, hiss, hclean, hrest⟩
      refine ⟨⟨hsame.image, hsame.havedisk1, hsame.busy, hsame.lh⟩, hown, ⟨hcache, ?_⟩, hiss, hnb,
        by simpa using hclean, fun j hji => ?_⟩
      · exact held_of_others hc hown hrest
      · rw [hrest j hji, Store.setBuf_of_ne _ _ hji]
  · rename_i hnone
    have hnone : ∀ j, j < NBUF → (s.buf j).dev = ROOTDEV → (s.buf j).sector ≠ sector := by
      intro j hj hdev hsec
      have := List.find?_eq_none.1 hnone j ((hc.order j).2 hj)
      simp [hdev, hsec] at this
    split
    · -- a clean buffer is recycled
      rename_i i hfind
      obtain ⟨hnb, -⟩ := by simpa using List.find?_some hfind
      have hlt := (hc.order i).1 (List.mem_reverse.1 (List.mem_of_find?_eq_some hfind))
      apply wp_bind
      refine wp_modify hcr rfl (wp_pure hcr ?_)
      have hc' : Coherent L (s.setBuf i { s.buf i with
          busy := true, valid := false, dirty := false, dev := ROOTDEV, sector := sector }) := by
        refine hc.setBuf (fun j hj _ hdev _ => hnone j hj hdev) (by simp) (by simp)
      refine (bread_fill hc' sector hlt hcr (by simp) (by simp) (by simp)).mono ?_
      rintro k s' ⟨rfl, hsame, hown, hcache, hiss, hclean, hrest⟩
      refine ⟨⟨hsame.image, hsame.havedisk1, hsame.busy, hsame.lh⟩, hown, ⟨hcache, ?_⟩, hiss, hnb, ?_, fun j hji => ?_⟩
      · exact held_of_others hc hown hrest
      · intro hd
        simpa using hclean hd
      · rw [hrest j hji, Store.setBuf_of_ne _ _ hji]
    · exact wp_throw hcr

/-- After `brelse i`: every other buffer is as it was. -/
structure Released (L : Layout) (s : Store) (i : ℕ) (s' : Store) : Prop where
  same : Same s s'
  cache : Cache L s'
  issued : s'.issued = s.issued
  free : (s'.buf i).busy = false
  clean : (s'.buf i).dirty = (s.buf i).dirty
  others : ∀ j, j ≠ i → s'.buf j = s.buf j

lemma Released.disk {s' : Store} {i : ℕ} (h : Released L s i s') : s'.disk = s.disk := by
  rw [Store.disk, h.same.image, h.issued]
  rfl

lemma brelse_wp (hc : Cache L s) {i : ℕ} (hi : i < NBUF) (hcr : crash s.issued) :
    wp crash (brelse i) s fun _ s' => Released L s i s' := by
  unfold brelse
  apply wp_get_bind
  split
  · exact wp_throw hcr
  · refine wp_modify hcr rfl ?_
    have hk : Coherent L (s.setBuf i { s.buf i with busy := false }) :=
      hc.keep hi rfl rfl (hc.dirty i hi) (hc.log i hi)
    refine ⟨⟨rfl, rfl, rfl, rfl⟩, ⟨⟨fun j => ?_, hk.unique, hk.dirty, hk.log⟩, fun j hj hb => ?_⟩, rfl, by simp, by simp,
      fun j hj => ?_⟩
    · show j ∈ i :: s.order.erase i ↔ _
      by_cases hji : j = i
      · simp [hji, hi]
      · rw [List.mem_cons, List.mem_erase_of_ne hji, hc.order]
        simp [hji]
    · by_cases hji : j = i
      · simp [hji] at hb
      · dsimp only at hb ⊢
        rw [Store.setBuf_of_ne _ _ hji] at hb ⊢
        exact hc.held j hj hb
    · exact Store.setBuf_of_ne _ _ hj

/-- After a buffer has been filled and written out. -/
structure Written (L : Layout) (s : Store) (i sector : ℕ) (b : Block) (s' : Store) : Prop where
  same : Same s s'
  own : Held s' i sector
  cache : Cache L s'
  issued : s'.issued = s.issued ++ [(sector, b)]
  clean : (s'.buf i).dirty = false
  others : ∀ j, j ≠ i → s'.buf j = s.buf j

lemma Written.disk {s' : Store} {i sector : ℕ} {b : Block} (h : Written L s i sector b s') :
    s'.disk = s.disk.put (sector, b) := by
  rw [Store.disk, h.same.image, h.issued, Disk.replay_snoc]
  rfl

/-- Writing out a buffer that is held keeps the other log sectors as they are. -/
lemma Coherent.write {s' : Store} (hc : Coherent L s) {i sector : ℕ} (h : Held s i sector) {b : Block}
    (ho : s'.order = s.order) (hb : ∀ j, j ≠ i → s'.buf j = s.buf j)
    (hsec : (s'.buf i).sector = sector) (hv : (s'.buf i).valid = true) (hdata : (s'.buf i).data = b)
    (hd : s'.disk = s.disk.put (sector, b)) : Coherent L s' := by
  have hdev' : ∀ j, (s'.buf j).dev = ROOTDEV → (s.buf j).dev = ROOTDEV := by
    intro j hj
    by_cases hji : j = i
    · rw [hji, h.dev]
    · rwa [hb j hji] at hj
  have hsec' : ∀ j, (s'.buf j).sector = (s.buf j).sector := by
    intro j
    by_cases hji : j = i
    · rw [hji, hsec, h.sector]
    · rw [hb j hji]
  refine ⟨by rw [ho]; exact hc.order, fun j k hj hk hdj hdk hjk => ?_, fun j hj hdj => ?_, fun j hj hdj hlj hvj => ?_⟩
  · rw [hsec', hsec'] at hjk
    exact hc.unique j k hj hk (hdev' j hdj) (hdev' k hdk) hjk
  · by_cases hji : j = i
    · rw [hji, hv]
    · rw [hb j hji] at hdj ⊢
      exact hc.dirty j hj hdj
  · by_cases hji : j = i
    · rw [hji, hdata, hsec, hd, Disk.put_self]
    · have hne : (s.buf j).sector ≠ sector := by
        intro he
        exact hji (hc.unique j i hj h.lt (hdev' j hdj) h.dev (he.trans h.sector.symm))
      rw [hb j hji] at hlj hvj ⊢
      rw [hd, Disk.put_of_ne _ _ hne]
      exact hc.log j hj (hdev' j hdj) hlj hvj

/-- Filling a buffer and writing it out is one sector write. -/
lemma overwrite_wp (hc : Cache L s) {i sector : ℕ} (h : Held s i sector) (b : Block) (hcr : crash s.issued)
    (hcr' : crash (s.issued ++ [(sector, b)])) :
    wp crash (overwrite i b) s fun _ s' => Written L s i sector b s' := by
  apply wp_bind
  refine wp_modify hcr rfl ?_
  unfold bwrite
  apply wp_get_bind
  rw [if_neg (by simp [h.busy])]
  apply wp_bind
  refine wp_modify hcr rfl ?_
  unfold iderw
  apply wp_get_bind
  rw [if_neg (by simp [h.busy]), if_neg (by simp)]
  split
  · exact wp_throw hcr
  · rw [if_pos (by simp)]
    refine wp_write (w := (sector, b)) hcr (by simp [h.sector]) hcr' ?_
    have hrest : ∀ j, j ≠ i → (Store.setBuf (Store.setBuf (Store.setBuf s i { s.buf i with data := b }) i
        { (Store.setBuf s i { s.buf i with data := b }).buf i with dirty := true }) i
        { (Store.setBuf (Store.setBuf s i { s.buf i with data := b }) i
          { (Store.setBuf s i { s.buf i with data := b }).buf i with dirty := true }).buf i with
          valid := true, dirty := false }).buf j = s.buf j := by
      intro j hj
      rw [Store.setBuf_of_ne _ _ hj, Store.setBuf_of_ne _ _ hj, Store.setBuf_of_ne _ _ hj]
    refine ⟨⟨rfl, rfl, rfl, rfl⟩, ⟨h.lt, ?_, ?_, ?_, ?_⟩, ?_, ?_, ?_, hrest⟩
    · simpa using h.busy
    · simpa using h.dev
    · simpa using h.sector
    · simp
    · refine ⟨Coherent.write (b := b) hc.toCoherent h rfl hrest ?_ ?_ ?_ ?_, fun j hj hb => ?_⟩
      · simpa using h.sector
      · simp
      · simp
      · simp only [Store.disk, Store.setBuf_self, Store.setBuf_issued, Disk.replay_snoc, h.sector]
        rfl
      · by_cases hji : j = i
        · simp [hji]
        · dsimp only at hb ⊢
          rw [hrest j hji] at hb ⊢
          exact hc.held j hj hb
    · simp [h.sector]
    · simp

end Fs

end Os132

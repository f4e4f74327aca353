import Os132.Lib.Words

/-!
# The boot loader (bootmain.c)

`bootmain` reads the kernel's ELF file by whole sectors, so that around each segment it writes more of memory than
it was asked for. `Bootable` says of a file that this does no harm: what is read for a segment, rounded to sectors
at both ends, hits neither the page with the headers nor a segment that was loaded before it.
-/

namespace Os132

namespace Boot

open Words

/-- The sectors of the disk, which the 28 bits of an address select, and their bytes. -/
abbrev Disk := ℕ → ℕ → BitVec 8

def ELF_MAGIC : Word := 0x464C457F#32
def elf : Word := 0x10000#32

def readsect (d : Disk) (dst offset : Word) (m : ByteMem) : ByteMem := fun x =>
  if Within dst 512 x then d (offset.toNat % 2 ^ 28) (x - dst).toNat else m x

/-- none is a loop that does not end after `n` passes. -/
def readsegLoop (d : Disk) (epa : Word) : ℕ → Word → Word → ByteMem → Option ByteMem
  | 0, _, _, _ => none
  | n + 1, pa, offset, m =>
    if pa < epa then readsegLoop d epa n (pa + 512#32) (offset + 1#32) (readsect d pa offset m) else some m

/-- There are `2 ^ 23` sectors in the address space, so that many passes suffice. -/
def readseg (d : Disk) (pa count offset : Word) (m : ByteMem) : Option ByteMem :=
  readsegLoop d (pa + count) 8388609 (pa - offset % 512#32) (offset / 512#32 + 1#32) m

def stosb (m : ByteMem) (a : Word) (n : ℕ) : ByteMem := fun x => if Within a n x then 0 else m x

/-- The fields of `struct proghdr` that are read. -/
structure Proghdr where
  off : Word
  paddr : Word
  filesz : Word
  memsz : Word

def proghdr (m : ByteMem) (ph : Word) : Proghdr :=
  ⟨load m (ph + 4#32), load m (ph + 12#32), load m (ph + 16#32), load m (ph + 20#32)⟩

/-- `bootmain` reads `ph->filesz` and `ph->memsz` again behind `readseg`; no segment of a bootable disk lies over the
headers. -/
def Proghdr.load (d : Disk) (p : Proghdr) (m : ByteMem) : Option ByteMem :=
  (readseg d p.paddr p.filesz p.off m).map fun m =>
    if p.filesz < p.memsz then stosb m (p.paddr + p.filesz) (p.memsz - p.filesz).toNat else m

def segmentLoop (d : Disk) (eph : Word) : ℕ → Word → ByteMem → Option ByteMem
  | 0, _, _ => none
  | n + 1, ph, m =>
    if ph < eph then ((proghdr m ph).load d m).bind (segmentLoop d eph n (ph + 32#32)) else some m

inductive Outcome where
  /-- There is no executable on the disk. -/
  | returns (m : ByteMem)
  /-- The call of the entry point. -/
  | enters (entry : Word) (m : ByteMem)

/-- `ph` and `eph` are computed before the loop; `phnum` has 16 bits. -/
def bootmain (d : Disk) (m : ByteMem) : Option Outcome :=
  (readseg d elf 4096#32 0#32 m).bind fun m =>
    if load m elf ≠ ELF_MAGIC then some (.returns m)
    else
      let ph := elf + load m (elf + 28#32)
      let eph := ph + 32#32 * (m (elf + 45#32) ++ m (elf + 44#32)).setWidth 32
      (segmentLoop d eph 65536 ph m).map fun m => .enters (load m (elf + 24#32)) m

/-! ### The file -/

/-- The file begins at sector 1. -/
def file (d : Disk) (j : ℕ) : BitVec 8 := d (1 + j / 512) (j % 512)

def fileWord (d : Disk) (j : ℕ) : Word := file d (j + 3) ++ file d (j + 2) ++ file d (j + 1) ++ file d j

def phoff (d : Disk) : ℕ := (fileWord d 28).toNat
def phnum (d : Disk) : ℕ := (file d 45 ++ file d 44).toNat

/-- Segment `i` of the file. -/
def segment (d : Disk) (i : ℕ) : Proghdr :=
  let j := phoff d + 32 * i
  ⟨fileWord d (j + 4), fileWord d (j + 12), fileWord d (j + 16), fileWord d (j + 20)⟩

namespace Proghdr

/-- The first byte that is written for a segment, and the number of sectors. -/
def first (p : Proghdr) : ℕ := p.paddr.toNat - p.off.toNat % 512
def sectors (p : Proghdr) : ℕ := (p.off.toNat % 512 + p.filesz.toNat + 511) / 512

/-- The ends of the segment and of what is written for it. -/
def last (p : Proghdr) : ℕ := p.paddr.toNat + max p.filesz.toNat p.memsz.toNat
def touched (p : Proghdr) : ℕ := max (p.first + 512 * p.sectors) p.last

/-- The segment lies above the headers and does not reach the end of the address space. -/
structure Fits (p : Proghdr) : Prop where
  above : 0x11000 + p.off.toNat % 512 ≤ p.paddr.toNat
  below : p.touched < 2 ^ 32

/-- The segment is in memory. -/
structure Loaded (d : Disk) (p : Proghdr) (m : ByteMem) : Prop where
  bytes : ∀ x : Word, p.paddr.toNat ≤ x.toNat → x.toNat < p.paddr.toNat + p.filesz.toNat →
    m x = file d (p.off.toNat + (x.toNat - p.paddr.toNat))
  zeros : ∀ x : Word, p.paddr.toNat + p.filesz.toNat ≤ x.toNat → x.toNat < p.paddr.toNat + p.memsz.toNat → m x = 0

end Proghdr

/-- The file is an executable with its headers in the first page, and no segment is written over by a later one. -/
structure Bootable (d : Disk) : Prop where
  magic : fileWord d 0 = ELF_MAGIC
  headers : phoff d + 32 * phnum d ≤ 4096
  fits : ∀ i, i < phnum d → (segment d i).Fits
  apart : ∀ i j, i < j → j < phnum d → (segment d i).last ≤ (segment d j).first ∨ (segment d j).touched ≤ (segment d i).paddr.toNat

/-! ### Reading -/

variable {d : Disk} {m m' : ByteMem} {a c e o eph x : Word} {p : Proghdr} {i j k n : ℕ}

lemma readsect_at (h : a.toNat + 512 ≤ 2 ^ 32) : readsect d a o m x =
    if a.toNat ≤ x.toNat ∧ x.toNat < a.toNat + 512 then d (o.toNat % 2 ^ 28) (x.toNat - a.toNat) else m x := by
  unfold readsect
  by_cases hx : a.toNat ≤ x.toNat ∧ x.toNat < a.toNat + 512
  · rw [if_pos ((within_iff h).2 hx), if_pos hx, sub_toNat hx.1]
  · rw [if_neg (fun hw => hx ((within_iff h).1 hw)), if_neg hx]

lemma sectors_succ {u v : ℕ} : u ≤ v ∧ v < u + 512 * (k + 1) ↔
    (u ≤ v ∧ v < u + 512) ∨ (u + 512 ≤ v ∧ v < u + 512 + 512 * k) := by
  omega

lemma sector_next {u v : ℕ} (h : u + 512 ≤ v) : (v - u) / 512 = (v - (u + 512)) / 512 + 1 ∧ (v - u) % 512 = (v - (u + 512)) % 512 := by
  obtain ⟨w, rfl⟩ := Nat.exists_eq_add_of_le h
  rw [Nat.add_sub_cancel_left, Nat.add_assoc, Nat.add_sub_cancel_left, Nat.add_comm 512 w, Nat.add_div_right _ (by decide),
    Nat.add_mod_right]
  exact ⟨rfl, rfl⟩

lemma sector_first {u v : ℕ} (h : u ≤ v ∧ v < u + 512) : (v - u) / 512 = 0 ∧ (v - u) % 512 = v - u :=
  have hlt : v - u < 512 := by omega
  ⟨Nat.div_eq_of_lt hlt, Nat.mod_eq_of_lt hlt⟩

/-- The loop over `k` sectors, the first at `a`. -/
lemma readsegLoop_eq (hk : e.toNat ≤ a.toNat + 512 * k) (hk' : a.toNat + 512 * k < e.toNat + 512)
    (ha : a.toNat + 512 * k < 2 ^ 32) (ho : o.toNat + k < 2 ^ 28) (hn : k < n) :
    ∃ m', readsegLoop d e n a o m = some m' ∧ ∀ x : Word, m' x = if a.toNat ≤ x.toNat ∧ x.toNat < a.toNat + 512 * k then
      d (o.toNat + (x.toNat - a.toNat) / 512) ((x.toNat - a.toNat) % 512) else m x := by
  induction k generalizing n a o m with
  | zero =>
    obtain ⟨n, rfl⟩ : ∃ n', n = n' + 1 := ⟨n - 1, by omega⟩
    have hge : ¬ a < e := by
      rw [BitVec.lt_def]
      omega
    refine ⟨m, by rw [readsegLoop, if_neg hge], fun x => ?_⟩
    rw [if_neg (by omega)]
  | succ k ih =>
    obtain ⟨n, rfl⟩ : ∃ n', n = n' + 1 := ⟨n - 1, by omega⟩
    have hlt : a < e := by
      rw [BitVec.lt_def]
      omega
    have ha' : (a + 512#32).toNat = a.toNat + 512 := by
      rw [BitVec.toNat_add, BitVec.toNat_ofNat]
      omega
    have ho' : (o + 1#32).toNat = o.toNat + 1 := by
      rw [BitVec.toNat_add, BitVec.toNat_ofNat]
      omega
    obtain ⟨m', hm', hbytes⟩ := ih (n := n) (a := a + 512#32) (o := o + 1#32) (m := readsect d a o m)
      (by omega) (by omega) (by omega) (by omega) (by omega)
    refine ⟨m', by rw [readsegLoop, if_pos hlt, hm'], fun x => ?_⟩
    have hmod : o.toNat % 2 ^ 28 = o.toNat := Nat.mod_eq_of_lt (by omega)
    rw [hbytes x, ha', ho', readsect_at (by omega), hmod]
    by_cases h1 : a.toNat + 512 ≤ x.toNat ∧ x.toNat < a.toNat + 512 + 512 * k
    · obtain ⟨hdiv, hrem⟩ := sector_next h1.1
      rw [if_pos h1, if_pos (sectors_succ.2 (.inr h1)), hdiv, hrem, Nat.add_assoc, Nat.add_comm 1]
    · rw [if_neg h1]
      by_cases h2 : a.toNat ≤ x.toNat ∧ x.toNat < a.toNat + 512
      · obtain ⟨hdiv, hrem⟩ := sector_first h2
        rw [if_pos h2, if_pos (sectors_succ.2 (.inl h2)), hdiv, hrem, Nat.add_zero]
      · rw [if_neg h2, if_neg fun h => (sectors_succ.1 h).elim h2 h1]

/-- `readseg` writes the `k` sectors of the file in which the bytes lie, from the address `j` on, and nothing else. -/
lemma readseg_eq (hj : j + o.toNat % 512 = a.toNat) (hk : o.toNat % 512 + c.toNat ≤ 512 * k)
    (hk' : 512 * k < o.toNat % 512 + c.toNat + 512) (hend : j + 512 * k < 2 ^ 32) :
    ∃ m', readseg d a c o m = some m' ∧ ∀ x : Word, m' x =
      if j ≤ x.toNat ∧ x.toNat < j + 512 * k then file d (512 * (o.toNat / 512) + (x.toNat - j)) else m x := by
  have hsector : o.toNat / 512 < 8388608 := Nat.div_lt_of_lt_mul o.isLt
  have hmod : (o % 512#32).toNat = o.toNat % 512 := by
    rw [BitVec.toNat_umod, BitVec.toNat_ofNat]
  have hdiv : (o / 512#32 + 1#32).toNat = o.toNat / 512 + 1 := by
    rw [BitVec.toNat_add, BitVec.toNat_udiv, show (512#32).toNat = 512 from rfl, show (1#32).toNat = 1 from rfl]
    exact Nat.mod_eq_of_lt (by omega)
  have hstart : (a - o % 512#32).toNat = j := by
    rw [sub_toNat (by rw [hmod]; exact hj ▸ Nat.le_add_left _ _), hmod, ← hj, Nat.add_sub_cancel]
  have hend' : (a + c).toNat = j + o.toNat % 512 + c.toNat := by
    rw [BitVec.toNat_add, hj]
    exact Nat.mod_eq_of_lt (by omega)
  generalize o.toNat % 512 = r at *
  generalize hq : o.toNat / 512 = q at *
  obtain ⟨m', hm', hbytes⟩ := readsegLoop_eq (d := d) (m := m) (e := a + c) (a := a - o % 512#32)
    (o := o / 512#32 + 1#32) (n := 8388609) (k := k) (by omega) (by omega) (by omega) (by omega) (by omega)
  refine ⟨m', hm', fun x => ?_⟩
  rw [hbytes x, hstart, hdiv]
  refine if_congr Iff.rfl ?_ rfl
  rw [file, Nat.mul_add_div (by decide), Nat.mul_add_mod, Nat.add_comm q 1, Nat.add_assoc]

/-- What the arithmetic of a segment comes to. -/
structure Proghdr.Bounds (p : Proghdr) : Prop where
  start : p.first + p.off.toNat % 512 = p.paddr.toNat
  enough : p.off.toNat % 512 + p.filesz.toNat ≤ 512 * p.sectors
  few : 512 * p.sectors < p.off.toNat % 512 + p.filesz.toNat + 512
  sectors_touched : p.first + 512 * p.sectors ≤ p.touched
  file_touched : p.paddr.toNat + p.filesz.toNat ≤ p.touched
  zeros_touched : p.paddr.toNat + p.memsz.toNat ≤ p.touched
  touched_lt : p.touched < 2 ^ 32

lemma Proghdr.Fits.bounds (hp : p.Fits) : p.Bounds where
  start := Nat.sub_add_cancel (le_trans (Nat.le_add_left _ _) hp.above)
  enough := by
    unfold Proghdr.sectors
    omega
  few := by
    unfold Proghdr.sectors
    omega
  sectors_touched := le_max_left _ _
  file_touched := le_trans (Nat.add_le_add_left (le_max_left _ _) _) (le_max_right _ _)
  zeros_touched := le_trans (Nat.add_le_add_left (le_max_right _ _) _) (le_max_right _ _)
  touched_lt := hp.below

/-- Reading a segment: the bytes of the file and the zeros are in their places, and around them nothing is written
beyond the sectors. -/
lemma Proghdr.Fits.load (hp : p.Fits) : ∃ m', p.load d m = some m' ∧ p.Loaded d m' ∧
    ∀ x : Word, x.toNat < p.first ∨ p.touched ≤ x.toNat → m' x = m x := by
  obtain ⟨hstart, henough, hfew, hsec, hfile, hzeros, hlt⟩ := hp.bounds
  obtain ⟨m', hm', hbytes⟩ := readseg_eq (d := d) (m := m) hstart henough hfew (by omega)
  have hq := Nat.div_add_mod p.off.toNat 512
  generalize p.off.toNat % 512 = r at *
  generalize 512 * (p.off.toNat / 512) = q at *
  have hinside : ∀ x : Word, p.paddr.toNat ≤ x.toNat → x.toNat < p.paddr.toNat + p.filesz.toNat →
      m' x = file d (p.off.toNat + (x.toNat - p.paddr.toNat)) := by
    intro x h1 h2
    rw [hbytes, if_pos (by omega)]
    exact congrArg (file d) (by omega)
  have houtside : ∀ x : Word, x.toNat < p.first ∨ p.touched ≤ x.toNat → m' x = m x := by
    intro x hx
    rw [hbytes, if_neg (by omega)]
  clear hbytes
  by_cases hz : p.filesz < p.memsz
  · have hz' : p.filesz.toNat < p.memsz.toNat := BitVec.lt_def.1 hz
    have hbss : (p.paddr + p.filesz).toNat = p.paddr.toNat + p.filesz.toNat := by
      rw [BitVec.toNat_add]
      exact Nat.mod_eq_of_lt (by omega)
    have hsize : (p.memsz - p.filesz).toNat = p.memsz.toNat - p.filesz.toNat := sub_toNat hz'.le
    have hstosb : ∀ x : Word, stosb m' (p.paddr + p.filesz) (p.memsz - p.filesz).toNat x =
        if p.paddr.toNat + p.filesz.toNat ≤ x.toNat ∧ x.toNat < p.paddr.toNat + p.memsz.toNat then 0 else m' x := by
      intro x
      have hw := within_iff (a := p.paddr + p.filesz) (n := (p.memsz - p.filesz).toNat) (x := x) (by omega)
      rw [hbss, hsize, Nat.add_assoc, Nat.add_sub_of_le hz'.le] at hw
      exact if_congr (hsize ▸ hw) rfl rfl
    refine ⟨_, by rw [Proghdr.load, hm', Option.map_some, if_pos hz], ⟨fun x h1 h2 => ?_, fun x h1 h2 => ?_⟩, fun x hx => ?_⟩
    · rw [hstosb, if_neg fun h => absurd h.1 (not_le.2 h2), hinside x h1 h2]
    · rw [hstosb, if_pos ⟨h1, h2⟩]
    · rw [hstosb, if_neg (by omega), houtside x hx]
  · have hz' : p.memsz.toNat ≤ p.filesz.toNat := not_lt.1 fun h => hz (BitVec.lt_def.2 h)
    exact ⟨m', by rw [Proghdr.load, hm', Option.map_some, if_neg hz],
      ⟨hinside, fun x h1 h2 => absurd (lt_of_le_of_lt h1 h2) (by omega)⟩, houtside⟩

/-! ### The headers -/

/-- The page at `elf` holds the first page of the file. -/
def Scratch (d : Disk) (m : ByteMem) : Prop :=
  ∀ x : Word, 0x10000 ≤ x.toNat → x.toNat < 0x11000 → m x = file d (x.toNat - 0x10000)

lemma Scratch.byte (h : Scratch d m) (hj : j < 4096) : m (elf + BitVec.ofNat 32 j) = file d j := by
  have ht : (elf + BitVec.ofNat 32 j).toNat = 0x10000 + j := by
    rw [elf, BitVec.toNat_add, BitVec.toNat_ofNat, BitVec.toNat_ofNat]
    omega
  rw [h _ (by omega) (by omega), ht]
  exact congrArg (file d) (by omega)

lemma Scratch.load (h : Scratch d m) (hj : j + 4 ≤ 4096) : load m (elf + BitVec.ofNat 32 j) = fileWord d j := by
  have hnext : ∀ k : ℕ, elf + BitVec.ofNat 32 j + BitVec.ofNat 32 k = elf + BitVec.ofNat 32 (j + k) := by
    intro k
    rw [BitVec.ofNat_add, BitVec.add_assoc]
  unfold Words.load fileWord
  rw [hnext, hnext, hnext, h.byte (by omega), h.byte (by omega), h.byte (by omega), h.byte (by omega)]

lemma Scratch.proghdr (h : Scratch d m) (hi : phoff d + 32 * i + 32 ≤ 4096) :
    proghdr m (elf + BitVec.ofNat 32 (phoff d + 32 * i)) = segment d i := by
  have hfield : ∀ k, k + 4 ≤ 32 → Words.load m (elf + BitVec.ofNat 32 (phoff d + 32 * i) + BitVec.ofNat 32 k) =
      fileWord d (phoff d + 32 * i + k) := by
    intro k hk
    rw [BitVec.add_assoc, ← BitVec.ofNat_add]
    exact h.load (by omega)
  unfold Boot.proghdr segment
  rw [hfield 4 (by omega), hfield 12 (by omega), hfield 16 (by omega), hfield 20 (by omega)]

/-- After the segments before `i`. -/
structure Upto (d : Disk) (i : ℕ) (m : ByteMem) : Prop where
  scratch : Scratch d m
  loaded : ∀ j, j < i → (segment d j).Loaded d m

lemma Upto.next (hd : Bootable d) (hi : i < phnum d) (h : Upto d i m) :
    ∃ m', (segment d i).load d m = some m' ∧ Upto d (i + 1) m' := by
  have hfits := hd.fits i hi
  obtain ⟨m', hm', hloaded, hsame⟩ := hfits.load (d := d) (m := m)
  refine ⟨m', hm', fun x h1 h2 => ?_, fun j hj => ?_⟩
  · rw [hsame x (.inl ?_), h.scratch x h1 h2]
    have := hfits.above
    unfold Proghdr.first
    omega
  · rcases Nat.lt_succ_iff_lt_or_eq.1 hj with hlt | rfl
    · -- an earlier segment is not in the way
      have hout : ∀ x : Word, (segment d j).paddr.toNat ≤ x.toNat → x.toNat < (segment d j).last → m' x = m x := by
        intro x h1 h2
        refine hsame x ?_
        rcases hd.apart j i hlt hi with ha | ha
        · exact .inl (by omega)
        · exact .inr (by omega)
      have hold := h.loaded j hlt
      unfold Proghdr.last at hout
      exact ⟨fun x h1 h2 => (hout x h1 (by omega)).trans (hold.bytes x h1 h2),
        fun x h1 h2 => (hout x (by omega) (by omega)).trans (hold.zeros x h1 h2)⟩
    · exact hloaded

lemma segmentLoop_loads (hd : Bootable d) (heph : eph = elf + BitVec.ofNat 32 (phoff d + 32 * phnum d)) (hi : i ≤ phnum d)
    (hn : phnum d - i < n) (h : Upto d i m) :
    ∃ m', segmentLoop d eph n (elf + BitVec.ofNat 32 (phoff d + 32 * i)) m = some m' ∧ Upto d (phnum d) m' := by
  have hheaders := hd.headers
  have haddr : ∀ k, k ≤ 4096 → (elf + BitVec.ofNat 32 k).toNat = 0x10000 + k := by
    intro k hk
    rw [elf, BitVec.toNat_add, BitVec.toNat_ofNat, BitVec.toNat_ofNat]
    omega
  induction n generalizing i m with
  | zero => omega
  | succ n ih =>
    by_cases hlt : i < phnum d
    · have hcond : elf + BitVec.ofNat 32 (phoff d + 32 * i) < eph := by
        rw [heph, BitVec.lt_def, haddr _ (by omega), haddr _ (by omega)]
        omega
      obtain ⟨m₁, hm₁, hupto⟩ := h.next hd hlt
      obtain ⟨m', hm', hall⟩ := ih (i := i + 1) (by omega) (by omega) hupto
      have hnext : elf + BitVec.ofNat 32 (phoff d + 32 * i) + 32#32 = elf + BitVec.ofNat 32 (phoff d + 32 * (i + 1)) := by
        rw [BitVec.add_assoc, ← BitVec.ofNat_add]
        exact congrArg (fun k => elf + BitVec.ofNat 32 k) (by omega)
      refine ⟨m', ?_, hall⟩
      rw [segmentLoop, if_pos hcond, h.scratch.proghdr (by omega), hm₁, Option.bind_some, hnext]
      exact hm'
    · obtain rfl : i = phnum d := by omega
      have hcond : ¬ elf + BitVec.ofNat 32 (phoff d + 32 * phnum d) < eph := by
        rw [heph]
        exact BitVec.lt_irrefl _
      exact ⟨m, by rw [segmentLoop, if_neg hcond], h⟩

/-- **The boot loader loads the kernel**: from any memory, `bootmain` ends and calls the entry point of the file with every
segment in its place, the bytes of the file first and zeros behind them, whatever else the sectors brought along. -/
theorem bootmain_loads (hd : Bootable d) (m : ByteMem) : ∃ m', bootmain d m = some (.enters (fileWord d 24) m') ∧
    ∀ i, i < phnum d → (segment d i).Loaded d m' := by
  obtain ⟨m₁, hm₁, hbytes⟩ := readseg_eq (d := d) (m := m) (a := elf) (c := 4096#32) (o := 0#32) (j := 0x10000) (k := 8)
    (by decide) (by decide) (by decide) (by decide)
  have hscratch : Scratch d m₁ := by
    intro x h1 h2
    rw [hbytes x, if_pos ⟨h1, h2⟩]
    exact congrArg (file d) (Nat.zero_add _)
  have hword := fun j hj => hscratch.load (j := j) hj
  have hmagic : Words.load m₁ elf = ELF_MAGIC := by
    have h0 := hword 0 (by omega)
    rw [hd.magic, BitVec.add_zero] at h0
    exact h0
  have hph : elf + Words.load m₁ (elf + 28#32) = elf + BitVec.ofNat 32 (phoff d + 32 * 0) := by
    rw [hword 28 (by omega), Nat.mul_zero, Nat.add_zero, phoff, BitVec.ofNat_toNat,
      BitVec.setWidth_eq]
  have hnum : (m₁ (elf + 45#32) ++ m₁ (elf + 44#32)).setWidth 32 = BitVec.ofNat 32 (phnum d) := by
    rw [hscratch.byte (by omega),
      hscratch.byte (by omega), phnum, BitVec.ofNat_toNat]
  have heph : elf + BitVec.ofNat 32 (phoff d + 32 * 0) + 32#32 * BitVec.ofNat 32 (phnum d) =
      elf + BitVec.ofNat 32 (phoff d + 32 * phnum d) := by
    rw [BitVec.add_assoc, ← BitVec.ofNat_mul, ← BitVec.ofNat_add, Nat.mul_zero,
      Nat.add_zero]
  have hphnum : phnum d < 65536 := (file d 45 ++ file d 44).isLt
  obtain ⟨m₂, hm₂, hupto⟩ := segmentLoop_loads hd rfl (Nat.zero_le _) (n := 65536) (by omega)
    ⟨hscratch, fun j hj => absurd hj (Nat.not_lt_zero j)⟩
  refine ⟨m₂, ?_, hupto.loaded⟩
  rw [bootmain, hm₁, Option.bind_some, if_neg (not_not.2 hmagic)]
  dsimp only
  rw [hph, hnum, heph, hm₂, Option.map_some, hupto.scratch.load (by omega)]

/-- A kernel of two segments; the second begins within a sector and is mostly zeros. -/
def smallHeaders : List (ℕ × BitVec 8) :=
  [(0, 0x7F), (1, 0x45), (2, 0x4C), (3, 0x46), (24, 0x0C), (26, 0x10), (28, 52), (44, 2), (57, 0x10), (66, 0x10), (68, 0x20),
    (69, 0x01), (72, 0x20), (73, 0x02), (88, 0x34), (89, 0x12), (96, 0x34), (97, 0x12), (98, 0x10), (100, 0x10), (105, 0x20)]

def smallFile (j : ℕ) : BitVec 8 := (smallHeaders.lookup j).getD (if j < 4096 then 0 else 0x90)

def smallKernel : Disk := fun s b => smallFile (512 * (s - 1) + b)

theorem bootmain_loads_smallKernel : Bootable smallKernel ∧ ∀ m, ∃ m', bootmain smallKernel m = some (.enters 0x10000C#32 m') ∧
    ∀ i, i < 2 → (segment smallKernel i).Loaded smallKernel m' := by
  have hnum : phnum smallKernel = 2 := by decide +kernel
  have h0 : segment smallKernel 0 = ⟨0x1000#32, 0x100000#32, 0x120#32, 0x220#32⟩ := by rfl
  have h1 : segment smallKernel 1 = ⟨0x1234#32, 0x101234#32, 0x10#32, 0x2000#32⟩ := by rfl
  have hd : Bootable smallKernel := by
    refine ⟨by decide +kernel, by decide +kernel, fun i hi => ?_, fun i j hij hj => ?_⟩
    · obtain rfl | rfl : i = 0 ∨ i = 1 := by omega
      · rw [h0]
        exact ⟨by decide, by decide⟩
      · rw [h1]
        exact ⟨by decide, by decide⟩
    · obtain ⟨rfl, rfl⟩ : i = 0 ∧ j = 1 := by omega
      rw [h0, h1]
      exact .inl (by decide)
  have hentry : fileWord smallKernel 24 = 0x10000C#32 := by decide +kernel
  exact ⟨hd, fun m => by simpa only [hentry, hnum] using bootmain_loads hd m⟩

end Boot

end Os132

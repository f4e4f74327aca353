import Os132.Files.Blocks

/-!
# References to the inode cache

`At` is what holds inside a call: the blocks are in order, and every place in the inode cache counts
its holders: the working directories, the open files, and the references `refs` that the call itself
has taken. The inodes of `locked` have been locked by the call, so that their copies are valid.
-/

namespace Os132

namespace Files

open Prog

/-- The processes that are there, the open files and what the processes hold. -/
structure Ctx where
  procs : List ℕ
  file : ℕ → File
  proc : ℕ → Proc

namespace Ctx

/-- The references to a place in the inode cache from working directories and open files. -/
def holders (C : Ctx) (ip : ℕ) : ℕ :=
  C.procs.countP (fun p => (C.proc p).cwd = ip) +
    (List.range NFILE).countP fun f => (C.file f).type = .inode ∧ (C.file f).ip = ip

/-- Whether a place in the inode cache has holders, with those of the call. -/
def Backed (C : Ctx) (L : List ℕ) (ip : ℕ) : Prop := 0 < C.holders ip + L.count ip

end Ctx

/-- The count of references. -/
def refs (s : State) (ip : ℕ) : ℕ := if ip < NINODE then (s.icache ip).ref else 0

structure At (strong : Prop) (dirty : Option ℕ) (C : Ctx) (L K : List ℕ) (s : State) : Prop where
  file : s.file = C.file
  proc : s.proc = C.proc
  blocks : Blocks strong dirty s
  refs : ∀ ip, C.holders ip + L.count ip ≤ refs s ip
  locked : ∀ ip ∈ K, Loaded s ip
  backed : ∀ ip ∈ K, C.Backed L ip

/-- The state without the buffers, the log and the console. -/
def norm (s : State) : State := { s with held := [], busy := false, logged := [], console := fun _ => [] }

variable {strong : Prop} {dirty dirty' : Option ℕ} {C : Ctx} {L L' K K' : List ℕ} {s s' : State} {ip jp i k b : ℕ}

namespace At

lemma live_of_backed (h : At strong dirty C L K s) (hb : C.Backed L ip) : Live s ip := by
  have h1 := h.refs ip
  unfold Ctx.Backed at hb
  unfold Files.refs at h1
  split_ifs at h1 with hip
  · exact ⟨hip, by omega⟩
  · omega

lemma live (h : At strong dirty C L K s) (hip : ip ∈ L) : Live s ip :=
  h.live_of_backed (by have := List.count_pos_iff.2 hip; unfold Ctx.Backed; omega)

lemma sub (h : At strong dirty C L K s) (hK : ∀ jp ∈ K', jp ∈ K) : At strong dirty C L K' s :=
  ⟨h.file, h.proc, h.blocks, h.refs, fun jp hj => h.locked jp (hK jp hj), fun jp hj => h.backed jp (hK jp hj)⟩

lemma perm (h : At strong dirty C L K s) (hL : ∀ jp, L'.count jp = L.count jp) : At strong dirty C L' K s :=
  ⟨h.file, h.proc, h.blocks, fun jp => by rw [hL]; exact h.refs jp, h.locked, fun jp hj => by
    rw [Ctx.Backed, hL]
    exact h.backed jp hj⟩

lemma swap {a c : ℕ} (h : At strong dirty C (a :: c :: L) K s) : At strong dirty C (c :: a :: L) K s :=
  h.perm fun jp => by simp only [List.count_cons]; omega

lemma weaken (h : At strong dirty C L K s) (hs : ¬ strong) : At strong dirty' C L K s :=
  ⟨h.file, h.proc, ⟨h.blocks.uniq, fun jp k h1 h2 => (h.blocks.disk jp k h1 h2).imp id fun h3 => ⟨fun h4 => absurd h4 hs, h3.2⟩,
    h.blocks.typed, h.blocks.owns, h.blocks.head, h.blocks.small, h.blocks.exact⟩, h.refs, h.locked, h.backed⟩

/-- The entry of one place in the inode cache changes. -/
lemma entry (h : At strong dirty C L K s) {v : Inode} (hip : ip < NINODE) (hb : Blocks strong dirty' (s.setInode ip v))
    (hL : ∀ jp, jp ≠ ip → L'.count jp = L.count jp) (hr : C.holders ip + L'.count ip ≤ v.ref)
    (hK : ∀ jp ∈ K', jp ≠ ip → jp ∈ K) (hk : ip ∈ K' → C.Backed L' ip ∧ v.valid = true) :
    At strong dirty' C L' K' (s.setInode ip v) := by
  have hself : (s.setInode ip v).icache ip = v := if_pos rfl
  have hother : ∀ jp, jp ≠ ip → (s.setInode ip v).icache jp = s.icache jp := fun jp hj => if_neg hj
  refine ⟨h.file, h.proc, hb, fun jp => ?_, fun jp hj => ?_, fun jp hj => ?_⟩
  · by_cases hjp : jp = ip
    · rw [hjp, Files.refs, if_pos hip, hself]
      exact hr
    · rw [hL jp hjp, Files.refs, hother jp hjp]
      exact h.refs jp
  · by_cases hjp : jp = ip
    · obtain ⟨h1, h2⟩ := hk (hjp ▸ hj)
      rw [hjp, Loaded, Live, hself]
      unfold Ctx.Backed at h1
      exact ⟨⟨hip, by omega⟩, h2⟩
    · rw [Loaded, Live, hother jp hjp]
      exact h.locked jp (hK jp hj hjp)
  · by_cases hjp : jp = ip
    · exact hjp ▸ (hk (hjp ▸ hj)).1
    · rw [Ctx.Backed, hL jp hjp]
      exact h.backed jp (hK jp hj hjp)

/-- An entry that keeps the inode and its copy. -/
lemma same (h : At strong dirty C L K s) (hl : Live s ip) {v : Inode} (hi : v.inum = (s.icache ip).inum)
    (hv : v.valid = (s.icache ip).valid) (hd : v.d = (s.icache ip).d) (hr : C.holders ip + L'.count ip ≤ v.ref) (h0 : 0 < v.ref)
    (hL : ∀ jp, jp ≠ ip → L'.count jp = L.count jp) (hK : ∀ jp ∈ K', jp ∈ K) (hk : ip ∈ K' → C.Backed L' ip) :
    At strong dirty C L' K' (s.setInode ip v) := by
  have hself : (s.setInode ip v).icache ip = v := if_pos rfl
  have hother : ∀ jp, jp ≠ ip → (s.setInode ip v).icache jp = s.icache jp := fun jp hj => if_neg hj
  have hb : Blocks strong dirty (s.setInode ip v) := by
    refine h.blocks.congr rfl rfl rfl rfl (fun jp => ?_) (fun jp => ?_) (fun jp => ?_) fun jp => ?_
    all_goals by_cases hj : jp = ip
    · rw [hj, Live, hself]
      exact ⟨fun _ => hl, fun _ => ⟨hl.1, h0⟩⟩
    · rw [Live, Live, hother jp hj]
    all_goals first | rw [hj, hself, hi] | rw [hj, hself, hv] | rw [hj, hself, hd] | rw [hother jp hj]
  refine h.entry hl.1 hb hL hr (fun jp hj _ => hK jp hj) fun hj => ⟨hk hj, ?_⟩
  rw [hv]
  exact (h.locked ip (hK ip hj)).2

lemma setBusy (h : At strong dirty C L K s) (hl : Live s ip) (v : Bool) :
    At strong dirty C L K (s.setInode ip { s.icache ip with busy := v }) := by
  have hr := h.refs ip
  rw [Files.refs, if_pos hl.1] at hr
  exact h.same hl rfl rfl rfl hr hl.2 (fun _ _ => rfl) (fun _ hj => hj) fun hk => h.backed ip hk

lemma dup (h : At strong dirty C L K s) (hl : Live s ip) :
    At strong dirty C (ip :: L) K (s.setInode ip { s.icache ip with ref := (s.icache ip).ref + 1 }) := by
  have hr := h.refs ip
  rw [Files.refs, if_pos hl.1] at hr
  refine h.same hl rfl rfl rfl ?_ (Nat.succ_pos _) (fun jp hj => List.count_cons_of_ne (Ne.symm hj)) (fun _ hj => hj) fun hk => ?_
  · rw [List.count_cons_self]
    show _ ≤ (s.icache ip).ref + 1
    omega
  · rw [Ctx.Backed, List.count_cons_self]
    omega

/-- A reference is dropped, and it is not the last one. -/
lemma put (h : At strong dirty C (ip :: L) K s) (h1 : (s.icache ip).ref ≠ 1) (hK : ∀ jp ∈ K', jp ∈ K)
    (hk : ip ∈ K' → C.Backed L ip) : At strong dirty C L K' (s.setInode ip { s.icache ip with ref := (s.icache ip).ref - 1 }) := by
  have hl := h.live List.mem_cons_self
  have hr := h.refs ip
  rw [Files.refs, if_pos hl.1, List.count_cons_self] at hr
  have hpos := hl.2
  refine h.same hl rfl rfl rfl ?_ ?_ (fun jp hj => (List.count_cons_of_ne (Ne.symm hj)).symm) hK hk
  · show _ ≤ (s.icache ip).ref - 1
    omega
  · show 0 < (s.icache ip).ref - 1
    omega

/-- The last reference is dropped. -/
lemma putLast (h : At strong dirty C (ip :: L) K s) (h1 : (s.icache ip).ref = 1) (hd : strong → dirty ≠ some ip)
    (hK : ∀ jp ∈ K', jp ∈ K) (hk : ip ∈ K' → C.Backed L ip) :
    At strong dirty C L K' (s.setInode ip { s.icache ip with ref := (s.icache ip).ref - 1 }) := by
  have hl := h.live List.mem_cons_self
  have hr := h.refs ip
  rw [Files.refs, if_pos hl.1, List.count_cons_self] at hr
  refine h.entry hl.1 (h.blocks.evict hd rfl ?_) (fun jp hj => (List.count_cons_of_ne (Ne.symm hj)).symm) ?_
    (fun jp hj _ => hK jp hj) fun hj => ?_
  · show (s.icache ip).ref - 1 = 0
    omega
  · show _ ≤ (s.icache ip).ref - 1
    omega
  · have := hk hj
    unfold Ctx.Backed at this
    omega

/-- A place in the inode cache that was not in use gets an inode. -/
lemma get (h : At strong dirty C L K s) {inum : ℕ} (hip : ip < NINODE) (hr : (s.icache ip).ref = 0)
    (hn : ∀ jp, Live s jp → (s.icache jp).inum ≠ inum) :
    At strong dirty C (ip :: L) K (s.setInode ip { s.icache ip with inum := inum, ref := 1, busy := false, valid := false }) := by
  have hrefs := h.refs ip
  rw [Files.refs, if_pos hip] at hrefs
  refine h.entry hip (h.blocks.fresh hr hn ⟨rfl, rfl⟩) (fun jp hj => List.count_cons_of_ne (Ne.symm hj)) ?_
    (fun jp hj _ => hj) fun hj => ?_
  · rw [List.count_cons_self]
    show _ ≤ 1
    omega
  · have := (h.locked ip hj).1.2
    omega

/-- The copy of an inode is read from disk. -/
lemma load (h : At strong dirty C L K s) (hb : C.Backed L ip) {v : Inode} (hi : v.inum = (s.icache ip).inum)
    (hr : v.ref = (s.icache ip).ref) (hval : v.valid = true) (hnv : (s.icache ip).valid = false)
    (hd : v.d = s.dinode (s.icache ip).inum) (ht : v.d.type ≠ 0) : At strong dirty C L (ip :: K) (s.setInode ip v) := by
  have hl := h.live_of_backed hb
  have hrefs := h.refs ip
  rw [Files.refs, if_pos hl.1] at hrefs
  have hview : view s v.inum = s.dinode (s.icache ip).inum := by
    rw [hi, ← Dinode.used_of_type (d := s.dinode (s.icache ip).inum) (hd ▸ ht)]
    refine view_unloaded fun jp h1 h2 => ?_
    have h1 := h.blocks.uniq jp ip h1.1 hl h2 ▸ h1.2
    rw [hnv] at h1
    exact Bool.noConfusion h1
  refine h.entry hl.1 (h.blocks.copy hl ⟨hi, by rw [hr]; exact hl.2⟩ hval ht fun k _ => by rw [hd, hview])
    (fun _ _ => rfl) (by rw [hr]; exact hrefs) (fun jp hj hne => ?_) fun _ => ⟨hb, hval⟩
  exact (List.mem_cons.1 hj).resolve_left hne

lemma setMeta (h : At strong dirty C L K s) (hl : Loaded s ip) {d : Dinode} (ht : d.type ≠ 0)
    (ha : ∀ k, k ≤ NDIRECT → d.addrs k = (s.icache ip).d.addrs k) :
    At strong dirty C L K (s.setInode ip { s.icache ip with d := d }) := by
  have hrefs := h.refs ip
  rw [Files.refs, if_pos hl.1.1] at hrefs
  refine h.entry hl.1.1 (h.blocks.copy hl.1 ⟨rfl, hl.1.2⟩ hl.2 ht fun k hk => ?_) (fun _ _ => rfl) hrefs
    (fun _ hj _ => hj) fun hj => ⟨h.backed ip hj, hl.2⟩
  rw [ha k hk]
  show _ = (view s (s.icache ip).inum).addrs k
  rw [view_loaded h.blocks.uniq hl]

lemma of_blocks (h : At strong dirty C L K s) (hb : Blocks strong dirty' s') (hf : s'.file = s.file) (hp : s'.proc = s.proc)
    (hi : s'.icache = s.icache) : At strong dirty' C L K s' := by
  refine ⟨hf.trans h.file, hp.trans h.proc, hb, fun jp => ?_, fun jp hj => ?_, h.backed⟩
  · rw [Files.refs, hi]
    exact h.refs jp
  · rw [Loaded, Live, hi]
    exact h.locked jp hj

end At

end Files

end Os132

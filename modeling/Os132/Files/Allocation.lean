import Os132.Files.Links

/-!
# The bitmap over sequences of calls

The system is the file system with the processes that are there, and a step is a whole call. In a run
in which `bmap` always finds a free block, and none missing below the end of a file, the bitmap marks
just the blocks of the inodes between any two transactions.
-/

namespace Os132

namespace Files

open Prog

variable {strong : Prop} {dirty : Option ℕ} {C C' : Ctx} {L K : List ℕ} {s s' : State} {ip jp p i k b : ℕ}

/-- The file system and the processes that are there. -/
structure Sys where
  state : State
  procs : List ℕ

namespace Call

/-- Whether process `p` can make the call: it is there, and a child is new. -/
def Enabled (p : ℕ) (c : Call) (procs : List ℕ) : Prop :=
  p ∈ procs ∧ match c with
    | .fork child => child ∉ procs
    | _ => True

instance (p : ℕ) (c : Call) (procs : List ℕ) : Decidable (c.Enabled p procs) := by
  unfold Enabled
  cases c <;> infer_instance

/-- The processes that are there after the call. -/
def after (p : ℕ) (c : Call) (procs : List ℕ) : List ℕ :=
  match c with
  | .fork child => child :: procs
  | .exit => procs.erase p
  | _ => procs

end Call

namespace Sys

/-- Process `p` makes the call `c`, from its beginning to its end. -/
def step (l : ℕ × Call) (y : Sys) : Option Sys :=
  if l.2.Enabled l.1 y.procs then
    match (l.2.code l.1).run y.state with
    | .ok (_, s') => some ⟨s', l.2.after l.1 y.procs⟩
    | .error _ => none
  else none

/-- The invariant between calls. -/
def Rest (strong : Prop) (y : Sys) : Prop :=
  ∃ C, C.procs = y.procs ∧ C.Ok ∧ Good strong none C [] [] y.state

end Sys

/-- A call of a process that is there keeps the invariant. -/
lemma safe_call {y : Sys} {c : Call} (h : y.Rest strong) (hc : c.Enabled p y.procs) :
    Safe strong (c.code p) y.state fun _ s' => Sys.Rest strong ⟨s', c.after p y.procs⟩ := by
  obtain ⟨C, hprocs, hC, h⟩ := h
  obtain ⟨s, procs⟩ := y
  obtain rfl : C.procs = procs := hprocs
  obtain ⟨hp, hc⟩ := hc
  have hend : Ends (α := Int) strong C [] fun _ s' => Sys.Rest strong ⟨s', C.procs⟩ :=
    fun _ C' s' hpr hok h => ⟨C', hpr, hok, h⟩
  cases c with
  | dup fd => exact safe_sysDup h hC hend
  | read fd n => exact safe_sysRead h hC hend
  | write fd src => exact safe_sysWrite h hC hend
  | close fd => exact safe_sysClose h hC hend
  | fstat fd => exact safe_sysFstat h hC hend
  | link old new => exact safe_sysLink h hC hp hend
  | unlink path => exact safe_sysUnlink h hC hp hend
  | «open» path omode => exact safe_sysOpen h hC hp hend
  | mkdir path => exact safe_sysMkdir h hC hp hend
  | mknod path major minor => exact safe_sysMknod h hC hp hend
  | chdir path => exact safe_sysChdir h hC hp hend
  | fork child => exact safe_fork h hC hp hc fun _ C' s' hpr hok h => ⟨C', hpr, hok, h⟩
  | exec path alloc => exact safe_exec h hC hp hend
  | exit => exact safe_bind (safe_exit h hC hp fun C' s' hpr hok h => wp_pure ⟨C', hpr, hok, h⟩)

/-- The system after boot: the first process, which stands in the root, and nothing else in memory. -/
structure Booted (y : Sys) : Prop where
  procs : y.procs = [0]
  cwd : (y.state.proc 0).cwd = 0
  ofile : ∀ fd, (y.state.proc 0).ofile fd = none
  root : (y.state.icache 0).inum = ROOTINO ∧ (y.state.icache 0).ref = 1 ∧ (y.state.icache 0).valid = false
  rest : ∀ ip, ip ≠ 0 → (y.state.icache ip).ref = 0
  file : ∀ f, (y.state.file f).ref = 0 ∧ (y.state.file f).type = .none

/-- An image on which the bitmap marks just the blocks of the inodes, and everything before the data
area. -/
structure Image (s : State) : Prop where
  consistent : Consistent s
  inside : ∀ i x b, (s.dinode i).type ≠ 0 → hold s.dinode s.data (i, x) = some b → DataArea s.sb b
  head : ∀ b, b < dataStart s.sb → s.bit b = true
  small : s.sb.size < 2 ^ 32

lemma Booted.rest_of_blocks {y : Sys} (h : Booted y)
    (howns : SoleOwner (hold (fun i => (y.state.dinode i).used) y.state.data) (y.state.bit · = true) (dataStart y.state.sb ≤ ·))
    (hhead : ∀ b, b < dataStart y.state.sb → y.state.bit b = true) (hsmall : y.state.sb.size < 2 ^ 32)
    (hexact : strong → Exact (hold (fun i => (y.state.dinode i).used) y.state.data) (y.state.bit · = true)
      (DataArea y.state.sb)) : y.Rest strong := by
  have hlive : ∀ ip, Live y.state ip → ip = 0 := by
    intro ip hl
    by_contra hne
    have := h.rest ip hne
    have := hl.2
    omega
  have hno : ∀ ip, ¬ Loaded y.state ip := by
    intro ip hl
    have h1 := hl.2
    rw [hlive ip hl.1, h.root.2.2] at h1
    exact Bool.noConfusion h1
  have hview : view y.state = fun i => (y.state.dinode i).used := by
    funext i
    exact view_unloaded fun ip hl => absurd hl (hno ip)
  refine ⟨⟨y.procs, y.state.file, y.state.proc⟩, rfl, ⟨?_, fun f hf => ?_⟩, rfl, rfl, ?_, fun ip => ?_,
    fun _ hj => (by cases hj), fun _ hj => (by cases hj)⟩
  · show y.procs.Nodup
    rw [h.procs]
    exact List.nodup_singleton 0
  · have : (y.state.file f).type = .inode := hf
    rw [(h.file f).2] at this
    cases this
  · have hb : Blocks strong none y.state := by
      refine ⟨fun ip jp h1 h2 _ => (hlive ip h1).trans (hlive jp h2).symm, fun ip k hl => absurd hl (hno ip),
        fun ip hl => absurd hl (hno ip), ?_, hhead, hsmall, ?_⟩
      · rw [hview]
        exact howns
      · rw [hview]
        exact hexact
    exact hb.congr rfl rfl rfl rfl (fun _ => Iff.rfl) (fun _ => rfl) (fun _ => rfl) fun _ => rfl
  · have hfiles : (List.range NFILE).countP (fun f => (y.state.file f).type = .inode ∧ (y.state.file f).ip = ip) = 0 := by
      rw [List.countP_eq_zero]
      intro f _
      simp [(h.file f).2]
    have hcwd : y.procs.countP (fun q => (y.state.proc q).cwd = ip) = if ip = 0 then 1 else 0 := by
      rw [h.procs, List.countP_singleton, h.cwd]
      simp [eq_comm]
    show y.procs.countP _ + (List.range NFILE).countP _ + 0 ≤ _
    rw [hfiles, hcwd]
    show _ ≤ refs y.state ip
    split_ifs with h0
    · rw [h0, refs, if_pos (by decide), h.root.2.1]
    · exact Nat.zero_le _

lemma Image.rest {y : Sys} (h : Image y.state) (hb : Booted y) : y.Rest strong := by
  refine hb.rest_of_blocks ⟨?_, ?_, ?_⟩ h.head h.small fun _ b ha hm => ?_
  · rintro ⟨i, x⟩ b hx
    have hx := hold_used.1 hx
    exact (h.consistent.marked b (h.inside i x b hx.1 hx.2)).2 ⟨i, x, hx⟩
  · rintro ⟨i, x⟩ b hx
    have hx := hold_used.1 hx
    exact (h.inside i x b hx.1 hx.2).1
  · rintro ⟨i, x⟩ ⟨j, y⟩ b hx hy
    have hx := hold_used.1 hx
    have hy := hold_used.1 hy
    obtain ⟨rfl, rfl⟩ := h.consistent.once i x j y b hx.1 hy.1 hx.2 hy.2
    rfl
  · obtain ⟨i, x, hx⟩ := (h.consistent.marked b ha).1 hm
    exact ⟨(i, x), hold_used.2 hx⟩

/-- After boot from an image of a kind. -/
structure Start (image : State → Prop) (y : Sys) : Prop where
  booted : Booted y
  image : image y.state

/-- Runs of calls, each executed from its beginning to its end, from images of a kind. -/
abbrev CallRun (image : State → Prop) (n : ℕ) := Lts.Run (Start image) Sys.step n

/-- The assumptions of `guard` are met at every action of the call. -/
def Sys.Meets (strong : Prop) (y : Sys) (l : ℕ × Call) : Prop := Prog.Meets (guard strong) (l.2.code l.1) y.state

lemma rest_of_run {image : State → Prop} {n : ℕ} (r : CallRun image n) (hm : r.Meets (Sys.Meets strong))
    (h0 : ∀ y, Booted y → image y.state → y.Rest strong) : ∀ k, k ≤ n → (r.state k).Rest strong := by
  refine r.invariant_of hm (fun y hy => h0 y hy.booted hy.image) fun y l y' h hok hs => ?_
  unfold Sys.step at hs
  split_ifs at hs with hen
  obtain ⟨-, hret, -⟩ := (safe_call h hen).run hok
  cases hrun : (l.2.code l.1).run y.state with
  | error e =>
    rw [hrun] at hs
    cases hs
  | ok v =>
    rw [hrun] at hs
    cases hs
    exact hret v.1 v.2 hrun

lemma Sys.enabled {y y' : Sys} {l : ℕ × Call} (h : Sys.step l y = some y') : l.2.Enabled l.1 y.procs := by
  unfold Sys.step at h
  split_ifs at h with hen
  exact hen

lemma does_of_run {image : State → Prop} {n : ℕ} (r : CallRun image n) (hm : r.Meets (Sys.Meets strong))
    (h0 : ∀ y, Booted y → image y.state → y.Rest strong) (k : ℕ) (hk : k < n) :
    Prog.Does (guard strong) ((r.label k).2.code (r.label k).1) (r.state k).state := by
  exact ((safe_call (rest_of_run r hm h0 k (by omega)) (Sys.enabled (r.steps k hk))).run (hm k hk)).1

lemma Sys.Rest.consistent {y : Sys} (h : y.Rest True) : Consistent y.state := by
  obtain ⟨C, -, -, h⟩ := h
  exact h.blocks.of_norm.consistent trivial

/-- In a run of calls in which `bmap` finds a free block whenever it needs one, and misses none below
the end of a file, the bitmap marks between calls just the blocks of the inodes on disk, each of which
is in one place. So it is at every commit in a call, and no call frees a free block. -/
theorem consistent_between_transactions {n : ℕ} (r : CallRun Image n) (hm : r.Meets (Sys.Meets True)) :
    ∀ k, k ≤ n → Consistent (r.state k).state ∧ ∀ p (c : Call), c.Enabled p (r.state k).procs →
      (r.state k).Meets True (p, c) →
        Prog.Does (guard True) (c.code p) (r.state k).state ∧
          (c.code p).run (r.state k).state ≠ .error (.panic "freeing free block") := by
  intro k hk
  have hrest := rest_of_run r hm (fun y hb hi => hi.rest hb) k hk
  refine ⟨hrest.consistent, fun p c hen hmeets => ?_⟩
  obtain ⟨hdoes, -, hstop⟩ := (safe_call hrest hen).run hmeets
  exact ⟨hdoes, fun h => hstop _ h rfl⟩

/-! ### A directory with a hole -/

/-- A disk whose root directory has one entry, the directory `d`. That has no entries but `.` and `..`,
and its second block is missing. -/
def holeState : State where
  sb := ⟨1024, 985, 200, 10⟩
  dinode i :=
    if i = 1 then ⟨T_DIR, 0, 0, 2, 48, fun x => if x = 0 then 29 else 0⟩
    else if i = 2 then ⟨T_DIR, 0, 0, 1, 544, fun x => if x = 0 then 30 else 0⟩
    else Dinode.zero
  bit b := decide (b < 31)
  data b :=
    if b = 29 then fun i => (Dirent.toBytes 1 dot ++ Dirent.toBytes 1 dotdot ++ Dirent.toBytes 2 [100]).getD i 0
    else if b = 30 then fun i => (Dirent.toBytes 2 dot ++ Dirent.toBytes 1 dotdot).getD i 0
    else fun _ => 0
  held := []
  icache ip := if ip = 0 then ⟨1, 1, false, false, Dinode.zero⟩ else ⟨0, 0, false, false, Dinode.zero⟩
  busy := false
  logged := []
  file _ := ⟨.none, 0, false, false, 0, 0⟩
  proc _ := ⟨0, fun _ => none⟩
  console _ := []

def holeSys : Sys := ⟨holeState, [0]⟩

lemma booted_holeSys : Booted holeSys := by
  refine ⟨rfl, rfl, fun _ => rfl, ⟨rfl, rfl, rfl⟩, fun ip hip => ?_, fun _ => ⟨rfl, rfl⟩⟩
  show (if ip = 0 then _ else _ : Inode).ref = 0
  rw [if_neg hip]

/-- The first blocks of the two directories are the only ones in use. -/
lemma hold_holeState {data : ℕ → Block} {x : Place} : hold holeState.dinode data (i, x) = some b ↔
    x = .slot 0 ∧ (i = 1 ∧ b = 29 ∨ i = 2 ∧ b = 30) := by
  have haddr : ∀ k, (holeState.dinode i).addrs k = if k = 0 then (if i = 1 then 29 else if i = 2 then 30 else 0) else 0 := by
    intro k
    unfold holeState
    simp only
    by_cases h1 : i = 1
    · simp [h1]
    · by_cases h2 : i = 2 <;> simp [h1, h2, Dinode.zero]
  cases x with
  | slot k =>
    simp only [hold, haddr, Place.slot.injEq]
    by_cases hk : k = 0
    · subst hk
      rw [if_pos (Nat.zero_le _), if_pos rfl, block_eq]
      split_ifs <;> omega
    · rw [if_neg hk]
      simp [block, hk]
  | word j => simp [hold, haddr, NDIRECT]

lemma image_holeState : Image holeState := by
  refine ⟨⟨fun b hb => ⟨fun hm => ?_, ?_⟩, ?_⟩, ?_, fun b hb => ?_, by decide⟩
  · have h1 : 29 ≤ b := hb.1
    have h2 : b < 31 := of_decide_eq_true hm
    by_cases hb : b = 29
    · exact ⟨1, .slot 0, by decide, hold_holeState.2 ⟨rfl, by omega⟩⟩
    · exact ⟨2, .slot 0, by decide, hold_holeState.2 ⟨rfl, by omega⟩⟩
  · rintro ⟨i, x, -, hx⟩
    have := (hold_holeState.1 hx).2
    exact decide_eq_true (by omega)
  · intro i x j y b _ _ hx hy
    have hx := hold_holeState.1 hx
    have hy := hold_holeState.1 hy
    exact ⟨by omega, hx.1.trans hy.1.symm⟩
  · intro i x b _ hx
    have hx := (hold_holeState.1 hx).2
    show 29 ≤ b ∧ b < 1014
    omega
  · have : b < 29 := hb
    exact decide_eq_true (by omega)

lemma start_holeSys : Start Image holeSys := ⟨booted_holeSys, image_holeState⟩

instance : Inhabited (ℕ × Call) := ⟨(0, .exit)⟩

/-- There is room, as block 1000 is free, and no block is missing that should be there. -/
def roomy (strong : Bool) (l : Label) (s : State) : Bool :=
  match l with
  | .addr ip i => (s.icache ip).d.addrs i ≠ 0 ∨
      (dataStart s.sb ≤ 1000 ∧ 1000 < dataEnd s.sb ∧ s.bit 1000 = false) ∧ (strong = false ∨ (s.icache ip).d.size ≤ i * BSIZE)
  | .indirect b i => (s.data b).word i ≠ 0 ∨ dataStart s.sb ≤ 1000 ∧ 1000 < dataEnd s.sb ∧ s.bit 1000 = false
  | _ => true

lemma may_of_roomy {strong : Bool} (l : Label) (s : State) (h : roomy strong l s = true) : (guard (strong = true)).may l s := by
  cases l with
  | addr ip i =>
    intro h0
    simp only [roomy, h0, ne_eq, not_true_eq_false, false_or, decide_eq_true_eq] at h
    refine ⟨⟨1000, ⟨h.1.1, h.1.2.1⟩, h.1.2.2⟩, fun hs => h.2.resolve_left (by simp [hs])⟩
  | indirect b i =>
    intro h0
    simp only [roomy, h0, ne_eq, not_true_eq_false, false_or, decide_eq_true_eq] at h
    exact ⟨1000, ⟨h.1, h.2.1⟩, h.2.2⟩
  | begin => trivial
  | commit => trivial
  | logWrite x => trivial
  | drop ip => trivial
  | other => trivial

def roomyCall (strong : Bool) (_ : ℕ) (y : Sys) (l : ℕ × Call) : Bool :=
  checks (roomy strong) (l.2.code l.1) y.state

/-- A new directory in the root. -/
theorem consistent_between_transactions_mkdir : ∃ r : CallRun Image 1, r.Meets (Sys.Meets True) ∧
    Consistent (r.state 1).state := by
  obtain ⟨r, hq, -⟩ := Lts.exists_run_of_check Sys.step [(0, .mkdir (some [101]))] (roomyCall true) (fun _ => true)
    start_holeSys (by decide +kernel)
  have hm : r.Meets (Sys.Meets True) := fun k hk => by
    have := Meets.of_checks may_of_roomy (hq k hk)
    simpa [Sys.Meets] using this
  exact ⟨r, hm, (consistent_between_transactions r hm 1 (Nat.le_refl _)).1⟩

/-- The removal of `d/x`, which does not exist. -/
def unlinkMissing : ℕ × Call := (0, .unlink (some [100, 47, 120]))

def missed : Sys := (Sys.step unlinkMissing holeSys).getD holeSys

set_option maxRecDepth 100000 in
lemma dinode_missed : missed.state.dinode = holeState.dinode := by rfl

/-- The lookup fills the hole of `d`, but when `d` leaves the cache the new block is lost. -/
theorem hole_loses_block : ¬ ∀ (n : ℕ) (r : CallRun Image n),
    (∀ k, k < n → Prog.Does (guard False) ((r.label k).2.code (r.label k).1) (r.state k).state) →
      ∀ k, k ≤ n → Consistent (r.state k).state := by
  intro h
  have hstep : Sys.step unlinkMissing holeSys = some missed := by
    have hsome : (Sys.step unlinkMissing holeSys).isSome = true := by decide +kernel
    obtain ⟨y, hy⟩ := Option.isSome_iff_exists.1 hsome
    rw [missed, hy]
    rfl
  have hmeets : Sys.Meets False holeSys unlinkMissing := by
    have hc : checks (roomy false) (unlinkMissing.2.code unlinkMissing.1) holeSys.state = true := by decide +kernel
    simpa [Sys.Meets] using Meets.of_checks may_of_roomy hc
  let r : CallRun Image 1 := ⟨fun k => if k = 0 then holeSys else missed, fun _ => unlinkMissing,
    start_holeSys, fun k hk => by
      obtain rfl : k = 0 := by omega
      exact hstep⟩
  have hm : r.Meets (Sys.Meets False) := fun k hk => by
    obtain rfl : k = 0 := by omega
    exact hmeets
  have hcons := h 1 r (does_of_run r hm fun y hb hi => hi.rest hb) 1 le_rfl
  have hcons : Consistent missed.state := hcons
  have hbit : missed.state.bit 31 = true := by decide +kernel
  obtain ⟨i, x, -, hx⟩ := (hcons.marked 31 (by decide +kernel)).1 hbit
  rw [dinode_missed] at hx
  have := (hold_holeState.1 hx).2
  omega

end Files

end Os132

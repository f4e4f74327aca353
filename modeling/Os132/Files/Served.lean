import Os132.Files.Paths

/-!
# System calls keep the invariant

What processes hold changes with the calls: a reference of the call becomes one of an open file or of a
working directory, or the other way round, and the sum stays the same.
-/

lemma List.countP_change {α : Type} [DecidableEq α] {l : List α} (hn : l.Nodup) {a : α} (ha : a ∈ l) {P Q : α → Bool}
    (h : ∀ b ∈ l, b ≠ a → P b = Q b) :
    l.countP P + (if Q a then 1 else 0) = l.countP Q + (if P a then 1 else 0) := by
  have hperm := List.perm_cons_erase ha
  have herase : (l.erase a).countP P = (l.erase a).countP Q :=
    List.countP_congr fun b hb => by
      have := hn.mem_erase_iff.1 hb
      rw [h b this.2 this.1]
  rw [hperm.countP_eq P, hperm.countP_eq Q, List.countP_cons, List.countP_cons, herase]
  omega

namespace Os132

namespace Files

open Prog

variable {α β : Type} {strong : Prop} {dirty dirty' : Option ℕ} {C C' : Ctx} {L L' K K' : List ℕ} {s s' : State}
  {ip jp dp i k b p f fd : ℕ} {name path : Name}

namespace Ctx

def setFile (C : Ctx) (f : ℕ) (v : File) : Ctx := { C with file := fun x => if x = f then v else C.file x }

def setProc (C : Ctx) (p : ℕ) (v : Proc) : Ctx := { C with proc := fun x => if x = p then v else C.proc x }

/-- Open files are in the file table and in use. -/
structure Ok (C : Ctx) : Prop where
  nodup : C.procs.Nodup
  file : ∀ f, (C.file f).type = .inode → f < NFILE ∧ 0 < (C.file f).ref

/-- What an entry of the file table adds to the holders of a place. -/
def adds (v : File) (ip : ℕ) : ℕ := if v.type = .inode ∧ v.ip = ip then 1 else 0

lemma holders_setFile {v : File} (hf : f < NFILE) (ip : ℕ) :
    (C.setFile f v).holders ip + adds (C.file f) ip = C.holders ip + adds v ip := by
  have := List.countP_change List.nodup_range (List.mem_range.2 hf) (l := List.range NFILE)
    (P := fun x => ((C.setFile f v).file x).type = .inode ∧ ((C.setFile f v).file x).ip = ip)
    (Q := fun x => (C.file x).type = .inode ∧ (C.file x).ip = ip)
    fun b _ hb => by simp [setFile, hb]
  simp only [decide_eq_true_eq] at this
  have hself : (C.setFile f v).file f = v := if_pos rfl
  rw [hself] at this
  unfold holders adds
  rw [show (C.setFile f v).procs = C.procs from rfl, show (C.setFile f v).proc = C.proc from rfl]
  omega

lemma holders_congr (hpr : C'.procs.Perm C.procs)
    (hcwd : ∀ q ∈ C.procs, (C'.proc q).cwd = (C.proc q).cwd)
    (hf : ∀ f, (C'.file f).type = (C.file f).type ∧ (C'.file f).ip = (C.file f).ip) (ip : ℕ) : C'.holders ip = C.holders ip := by
  unfold holders
  congr 1
  · rw [hpr.countP_eq]
    refine List.countP_congr fun q hq => ?_
    rw [hcwd q hq]
  · refine List.countP_congr fun f _ => ?_
    rw [(hf f).1, (hf f).2]

lemma holders_setFile_same {v : File} (ht : v.type = (C.file f).type) (hi : v.ip = (C.file f).ip) (ip : ℕ) :
    (C.setFile f v).holders ip = C.holders ip := by
  have hpr : (C.setFile f v).procs.Perm C.procs := List.Perm.refl _
  refine holders_congr hpr (fun _ _ => rfl) (fun x => ?_) ip
  by_cases hx : x = f
  · subst hx
    simp [setFile, ht, hi]
  · simp [setFile, hx]

lemma holders_setFile_none {v : File} (hf : (C.file f).type ≠ .inode) (hv : v.type ≠ .inode) (ip : ℕ) :
    (C.setFile f v).holders ip = C.holders ip := by
  unfold holders
  congr 1
  refine List.countP_congr fun x _ => ?_
  by_cases hx : x = f
  · subst hx
    simp [setFile, hf, hv]
  · simp [setFile, hx]

lemma holders_setProc_same {v : Proc} (hc : p ∈ C.procs → v.cwd = (C.proc p).cwd) (ip : ℕ) :
    (C.setProc p v).holders ip = C.holders ip := by
  have hpr : (C.setProc p v).procs.Perm C.procs := List.Perm.refl _
  refine holders_congr hpr (fun q hq => ?_) (fun x => ⟨rfl, rfl⟩) ip
  show (if q = p then v else C.proc q).cwd = (C.proc q).cwd
  split_ifs with hqp
  · subst hqp
    exact hc hq
  · rfl

lemma Ok.backed (h : C.Ok) (hf : (C.file f).type = .inode) : C.Backed L (C.file f).ip := by
  have : 0 < (List.range NFILE).countP fun x => (C.file x).type = .inode ∧ (C.file x).ip = (C.file f).ip :=
    List.countP_pos_iff.2 ⟨f, List.mem_range.2 (h.file f hf).1, by simp [hf]⟩
  unfold Backed holders
  omega

lemma Ok.setFile (h : C.Ok) {v : File} (hv : v.type = .inode → f < NFILE ∧ 0 < v.ref) : (C.setFile f v).Ok := by
  refine ⟨h.nodup, fun x => ?_⟩
  show (if x = f then v else C.file x).type = _ → _ ∧ 0 < (if x = f then v else C.file x).ref
  split_ifs with hx
  · rw [hx]
    exact hv
  · exact h.file x

lemma Ok.setProc (h : C.Ok) (v : Proc) : (C.setProc p v).Ok := ⟨h.nodup, h.file⟩

end Ctx

/-- Open files and working directories change, but every place has as many holders. -/
lemma At.ctx (h : At strong dirty C L K s) (hsb : s'.sb = s.sb) (hdin : s'.dinode = s.dinode) (hbit : s'.bit = s.bit)
    (hdata : s'.data = s.data) (hic : s'.icache = s.icache) (hf : s'.file = C'.file) (hp : s'.proc = C'.proc)
    (hh : ∀ ip, C'.holders ip + L'.count ip = C.holders ip + L.count ip) : At strong dirty C' L' K s' := by
  refine ⟨hf, hp, h.blocks.congr hsb hdin hbit hdata (fun jp => ?_) ?_ ?_ ?_, fun jp => ?_, fun jp hj => ?_, fun jp hj => ?_⟩
  · rw [Live, Live, hic]
  all_goals try simp only [hic, implies_true]
  · rw [hh, Files.refs, hic]
    exact h.refs jp
  · rw [Loaded, Live, hic]
    exact h.locked jp hj
  · rw [Ctx.Backed, hh]
    exact h.backed jp hj

lemma At.setFile (h : At strong dirty C L K s) {v : File}
    (hh : ∀ ip, (C.setFile f v).holders ip + L'.count ip = C.holders ip + L.count ip) :
    At strong dirty (C.setFile f v) L' K (s.setFile f v) := by
  refine h.ctx rfl rfl rfl rfl rfl ?_ h.proc hh
  show (fun x => if x = f then v else s.file x) = _
  rw [h.file]
  rfl

lemma At.setFile_same (h : At strong dirty C L K s) {v : File} (ht : v.type = (C.file f).type) (hi : v.ip = (C.file f).ip) :
    At strong dirty (C.setFile f v) L K (s.setFile f v) :=
  h.setFile fun ip => by rw [Ctx.holders_setFile_same ht hi]

lemma At.setProc (h : At strong dirty C L K s) {v : Proc}
    (hh : ∀ ip, (C.setProc p v).holders ip + L'.count ip = C.holders ip + L.count ip) :
    At strong dirty (C.setProc p v) L' K (s.setProc p v) := by
  refine h.ctx rfl rfl rfl rfl rfl h.file ?_ hh
  show (fun x => if x = p then v else s.proc x) = _
  rw [h.proc]
  rfl

/-- A call returns with the same processes there, and the references `L` left to it. -/
def Ends {α : Type} (strong : Prop) (C : Ctx) (L : List ℕ) (post : α → State → Prop) : Prop :=
  ∀ r C' s', C'.procs = C.procs → C'.Ok → Good strong none C' L [] s' → post r s'

/-! ### file.c -/

lemma safe_commitTrans {post : Unit → State → Prop} (h : Good strong none C L K s)
    (hp : ∀ s', Good strong none C L K s' → post () s') : Safe strong commitTrans s post :=
  safe_commit (fun hs => h.blocks.of_norm.consistent hs) (hp _ h)

lemma safe_beginTrans {post : Unit → State → Prop} (h : Good strong none C L K s)
    (hp : ∀ s', Good strong none C L K s' → post () s') : Safe strong beginTrans s post := safe_begin (hp _ h)

lemma safe_filealloc {post : Option ℕ → State → Prop} (h : Good strong none C L K s) (hC : C.Ok)
    (hnone : post none s)
    (hsome : ∀ f s', f < NFILE → (C.file f).type ≠ .inode → Good strong none (C.setFile f { C.file f with ref := 1 }) L K s' →
      post (some f) s') : Safe strong filealloc s post := by
  refine safe_other (fun a s' h' => ?_) fun e h' => ?_
  · split at h'
    · rename_i f hf
      cases h'
      have h1 := List.find?_some hf
      have h2 := List.mem_range.mp (List.mem_of_find?_eq_some hf)
      simp only [decide_eq_true_eq] at h1
      rw [show s.file = C.file from h.file] at h1 ⊢
      refine ⟨fun _ h => h, hsome f _ h2 (fun ht => ?_) ?_⟩
      · have := (hC.file f ht).2
        omega
      · exact At.setFile_same h rfl rfl
    · cases h'
      exact ⟨fun _ h => h, hnone⟩
  · split at h' <;> cases h'

lemma safe_filedup {post : Unit → State → Prop} (h : Good strong none C L K s) (hC : C.Ok)
    (hp : ∀ C' s', C'.procs = C.procs → C'.proc = C.proc → C'.Ok → Good strong none C' L K s' → post () s') :
    Safe strong (filedup f) s post := by
  refine safe_other (fun a s' h' => ?_) fun e h' => ?_
  · split at h'
    · cases h'
    · cases h'
      rw [show s.file = C.file from h.file]
      refine ⟨fun _ h => h, hp (C.setFile f { C.file f with ref := (C.file f).ref + 1 }) _ rfl rfl ?_ ?_⟩
      · exact hC.setFile fun ht => ⟨(hC.file f ht).1, Nat.succ_pos _⟩
      · exact At.setFile_same h rfl rfl
  · split at h'
    · cases h'
      simp [Halts]
    · cases h'

/-- The last reference to an open file leaves its inode to the call. -/
lemma safe_filecloseRef {post : Option ℕ → State → Prop} (h : Good strong none C L K s) (hC : C.Ok)
    (hnone : ∀ C' s', C'.procs = C.procs → C'.proc = C.proc → C'.Ok → Good strong none C' L K s' → post none s')
    (hsome : ∀ ip C' s', C'.procs = C.procs → C'.proc = C.proc → C'.Ok → Good strong none C' (ip :: L) K s' →
      post (some ip) s') : Safe strong (filecloseRef f) s post := by
  refine safe_other (fun a s' h' => ?_) fun e h' => ?_
  · rw [show s.file = C.file from h.file] at h'
    split_ifs at h' with h1 h2 h3
    · cases h'
      refine ⟨fun _ h => h, hnone (C.setFile f { C.file f with ref := (C.file f).ref - 1 }) _ rfl rfl ?_ ?_⟩
      · exact hC.setFile fun ht => ⟨(hC.file f ht).1, h2⟩
      · exact At.setFile_same h rfl rfl
    · cases h'
      refine ⟨fun _ h => h, hsome (C.file f).ip (C.setFile f { C.file f with ref := 0, type := .none }) _ rfl rfl ?_ ?_⟩
      · exact hC.setFile fun ht => (by cases ht)
      · refine At.setFile h fun ip => ?_
        have := Ctx.holders_setFile (C := C) (v := { C.file f with ref := 0, type := .none }) (hC.file f h3).1 ip
        simp only [Ctx.adds, h3, true_and] at this
        rw [List.count_cons]
        simp only [beq_iff_eq]
        simp only [reduceCtorEq, false_and, if_false] at this
        omega
    · cases h'
      refine ⟨fun _ h => h, hnone (C.setFile f { C.file f with ref := 0, type := .none }) _ rfl rfl ?_ ?_⟩
      · exact hC.setFile fun ht => (by cases ht)
      · exact At.setFile h fun ip => by rw [Ctx.holders_setFile_none h3 (by simp)]
  · split_ifs at h'
    · cases h'
      simp [Halts]

lemma safe_fileclose {post : Unit → State → Prop} (h : Good strong none C L K s) (hC : C.Ok)
    (hp : ∀ C' s', C'.procs = C.procs → C'.proc = C.proc → C'.Ok → Good strong none C' L [] s' → post () s') :
    Safe strong (fileclose f) s post := by
  refine safe_bind (safe_filecloseRef h hC (fun C₁ s₁ e₁ e₁' hC₁ h₁ => ?_) fun ip C₁ s₁ e₁ e₁' hC₁ h₁ => ?_)
  · exact wp_pure (hp _ _ e₁ e₁' hC₁ h₁.done)
  · refine safe_bind (safe_beginTrans h₁ fun s₂ h₂ => safe_bind ?_)
    refine safe_iput (J := []) h₂ (fun _ hj => by cases hj) (fun hj => by cases hj) fun s₃ h₃ => ?_
    exact safe_commitTrans h₃ fun s₄ h₄ => hp _ _ e₁ e₁' hC₁ h₄

lemma safe_filestat {post : Int → State → Prop} (h : Good strong none C L [] s) (hC : C.Ok) (hp : Ends strong C L post) :
    Safe strong (filestat f) s post := by
  refine safe_bind (safe_look ?_)
  rw [show s.file = C.file from h.file]
  split_ifs with ht
  · refine safe_bind (safe_ilock h (hC.backed ht) fun s₁ h₁ => safe_bind ?_)
    exact safe_iunlock h₁ (h₁.locked _ List.mem_cons_self).1 fun s₂ h₂ => wp_pure (hp _ _ _ rfl hC h₂.done)
  · exact wp_pure (hp _ _ _ rfl hC h)

lemma safe_fileread {n : ℕ} {post : Int → State → Prop} (h : Good strong none C L [] s) (hC : C.Ok)
    (hp : Ends strong C L post) : Safe strong (fileread f n) s post := by
  refine safe_bind (safe_look ?_)
  rw [show s.file = C.file from h.file]
  split_ifs with hr ht
  · exact wp_pure (hp _ _ _ rfl hC h)
  · refine safe_bind (safe_ilock h (hC.backed ht) fun s₁ h₁ => safe_bind (safe_look ?_))
    rw [show s₁.file = C.file from h₁.file]
    refine safe_bind (safe_readi h₁ List.mem_cons_self fun r s₂ h₂ => ?_)
    cases r with
    | none =>
      exact safe_bind (safe_iunlock h₂ (h₂.locked _ List.mem_cons_self).1 fun s₃ h₃ => wp_pure (hp _ _ _ rfl hC h₃.done))
    | some bytes =>
      refine safe_bind (safe_change (fun _ h => h) (safe_bind ?_))
      rw [show s₂.file = C.file from h₂.file]
      have h₃ := At.setFile_same (f := f) (v := { C.file f with off := (C.file f).off + bytes.length }) h₂ rfl rfl
      refine safe_iunlock h₃ (h₃.locked _ List.mem_cons_self).1 fun s₄ h₄ => ?_
      refine wp_pure (hp _ _ _ ?_ ?_ h₄.done)
      · rfl
      · exact hC.setFile fun ht => hC.file f ht
  · exact safe_panic (by decide)

lemma safe_filewriteChunk {src : List UInt8} {post : Option ℕ → State → Prop} (h : Good strong none C L [] s) (hC : C.Ok)
    (ht : (C.file f).type = .inode)
    (hp : ∀ r C' s', C'.procs = C.procs → C'.Ok → (C'.file f).type = .inode → Good strong none C' L [] s' → post r s') :
    Safe strong (filewriteChunk f src) s post := by
  refine safe_bind (safe_beginTrans h fun s₁ h₁ => safe_bind (safe_look ?_))
  rw [show s₁.file = C.file from h₁.file]
  refine safe_bind (safe_ilock h₁ (hC.backed ht) fun s₂ h₂ => safe_bind (safe_look ?_))
  rw [show s₂.file = C.file from h₂.file]
  refine safe_bind (safe_writei h₂ List.mem_cons_self fun r s₃ h₃ => safe_bind (safe_change (fun _ h => h) (safe_bind ?_)))
  rw [show s₃.file = C.file from h₃.file]
  have h₄ := At.setFile_same (f := f) (v := { C.file f with off := (C.file f).off + r.getD 0 }) h₃ rfl rfl
  refine safe_iunlock h₄ (h₄.locked _ List.mem_cons_self).1 fun s₅ h₅ => safe_bind ?_
  refine safe_commitTrans h₅ fun s₆ h₆ => wp_pure (hp _ _ _ ?_ ?_ ?_ h₆.done)
  · rfl
  · exact hC.setFile fun ht => hC.file f ht
  · exact (congrArg File.type (if_pos rfl)).trans ht

lemma safe_filewriteLoop {n : ℕ} {post : Int → State → Prop} (fuel : ℕ) (src : List UInt8) (h : Good strong none C L [] s)
    (hC : C.Ok) (ht : (C.file f).type = .inode) (hp : Ends strong C L post) :
    Safe strong (filewriteLoop f n fuel src) s post := by
  induction fuel generalizing src s C with
  | zero => exact wp_pure (hp _ _ _ rfl hC h)
  | succ fuel ih =>
    unfold filewriteLoop
    split_ifs
    · exact wp_pure (hp _ _ _ rfl hC h)
    · refine safe_bind (safe_filewriteChunk h hC ht fun r C₁ s₁ e₁ hC₁ ht₁ h₁ => ?_)
      have hp₁ : Ends strong C₁ L post := fun r C' s' e => hp r C' s' (e.trans e₁)
      cases r with
      | none => exact wp_pure (hp₁ _ _ _ rfl hC₁ h₁)
      | some k =>
        show Safe strong (if k ≠ (src.take maxWrite).length then _ else _) s₁ post
        split_ifs
        · exact safe_panic (by decide)
        · exact ih _ h₁ hC₁ ht₁ hp₁

lemma safe_filewrite {src : List UInt8} {post : Int → State → Prop} (h : Good strong none C L [] s) (hC : C.Ok)
    (hp : Ends strong C L post) : Safe strong (filewrite f src) s post := by
  refine safe_bind (safe_look ?_)
  rw [show s.file = C.file from h.file]
  split_ifs with hw ht
  · exact wp_pure (hp _ _ _ rfl hC h)
  · exact safe_filewriteLoop _ _ h hC ht hp
  · exact safe_panic (by decide)

/-! ### sysfile.c -/

lemma safe_argfd {post : Option ℕ → State → Prop} (hp : ∀ r, post r s) : Safe strong (argfd p fd) s post := safe_look (hp _)

lemma safe_setOfile {v : Option ℕ} {post : Unit → State → Prop} (h : Good strong none C L K s)
    (hp : ∀ w s', w.cwd = (C.proc p).cwd → Good strong none (C.setProc p w) L K s' → post () s') :
    Safe strong (setOfile p fd v) s post := by
  refine safe_change (fun _ h => h) ?_
  rw [show s.proc = C.proc from h.proc]
  refine hp { C.proc p with ofile := fun x => if x = fd then v else (C.proc p).ofile x } _ rfl ?_
  exact At.setProc h fun ip => by
    rw [Ctx.holders_setProc_same]
    exact fun _ => rfl

lemma safe_fdalloc {post : Option ℕ → State → Prop} (h : Good strong none C L K s) (hC : C.Ok)
    (hnone : post none s)
    (hsome : ∀ fd C' s', C'.procs = C.procs → C'.file = C.file → C'.Ok → Good strong none C' L K s' → post (some fd) s') :
    Safe strong (fdalloc p f) s post := by
  refine safe_bind (safe_look ?_)
  split
  · exact safe_bind (safe_setOfile h fun w s₁ _ h₁ => wp_pure (hsome _ (C.setProc p w) _ rfl rfl (hC.setProc w) h₁))
  · exact wp_pure hnone

lemma safe_sysDup {post : Int → State → Prop} (h : Good strong none C [] [] s) (hC : C.Ok) (hp : Ends strong C [] post) :
    Safe strong (sysDup p fd) s post := by
  refine safe_bind (safe_argfd fun r => ?_)
  cases r with
  | none => exact wp_pure (hp _ _ _ rfl hC h)
  | some f =>
    refine safe_bind (safe_fdalloc h hC (wp_pure (hp _ _ _ rfl hC h)) fun fd' C₁ s₁ e₁ _ hC₁ h₁ => ?_)
    exact safe_bind (safe_filedup h₁ hC₁ fun C₂ s₂ e₂ _ hC₂ h₂ => wp_pure (hp _ _ _ (e₂.trans e₁) hC₂ h₂))

lemma safe_sysRead {n : ℕ} {post : Int → State → Prop} (h : Good strong none C [] [] s) (hC : C.Ok)
    (hp : Ends strong C [] post) : Safe strong (sysRead p fd n) s post := by
  refine safe_bind (safe_argfd fun r => ?_)
  cases r with
  | none => exact wp_pure (hp _ _ _ rfl hC h)
  | some f => exact safe_fileread h hC hp

lemma safe_sysWrite {src : List UInt8} {post : Int → State → Prop} (h : Good strong none C [] [] s) (hC : C.Ok)
    (hp : Ends strong C [] post) : Safe strong (sysWrite p fd src) s post := by
  refine safe_bind (safe_argfd fun r => ?_)
  cases r with
  | none => exact wp_pure (hp _ _ _ rfl hC h)
  | some f => exact safe_filewrite h hC hp

lemma safe_sysClose {post : Int → State → Prop} (h : Good strong none C [] [] s) (hC : C.Ok) (hp : Ends strong C [] post) :
    Safe strong (sysClose p fd) s post := by
  refine safe_bind (safe_argfd fun r => ?_)
  cases r with
  | none => exact wp_pure (hp _ _ _ rfl hC h)
  | some f =>
    refine safe_bind (safe_setOfile h fun w s₁ _ h₁ => safe_bind ?_)
    exact safe_fileclose h₁ (hC.setProc w) fun C₂ s₂ e₂ _ hC₂ h₂ => wp_pure (hp _ _ _ e₂ hC₂ h₂)

lemma safe_sysFstat {post : Int → State → Prop} (h : Good strong none C [] [] s) (hC : C.Ok) (hp : Ends strong C [] post) :
    Safe strong (sysFstat p fd) s post := by
  refine safe_bind (safe_argfd fun r => ?_)
  cases r with
  | none => exact wp_pure (hp _ _ _ rfl hC h)
  | some f => exact safe_filestat h hC hp

end Files

end Os132

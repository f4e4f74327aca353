import Os132.Files.Served
import Os132.Files.Transaction

/-!
# Calls on names keep the invariant

The calls that look up paths, and what fork, exec and exit do with files. `safe_call` sums up: a call
of a process that is there keeps the invariant.
-/

namespace Os132

namespace Files

open Prog

variable {α β : Type} {strong : Prop} {dirty dirty' : Option ℕ} {C C' : Ctx} {L L' K K' : List ℕ} {s s' : State}
  {ip jp dp i k b p f fd : ℕ} {name path : Name}

lemma safe_setMeta {g : Dinode → Dinode} {post : Unit → State → Prop} (h : Good strong none C L K s) (hk : ip ∈ K)
    (hg : ∀ d, (g d).type = d.type ∧ (g d).addrs = d.addrs) (hp : ∀ s', Good strong none C L K s' → post () s') :
    Safe strong (setInode ip g) s post := by
  have hl : Loaded s ip := h.locked ip hk
  refine safe_setInode (hp _ (h.setMeta hl ?_ fun k _ => congrFun (hg _).2 k))
  rw [(hg _).1]
  exact h.blocks.typed ip hl

lemma safe_iupdate_clean {post : Unit → State → Prop} (h : Good strong none C L K s) (hk : ip ∈ K)
    (hp : ∀ s', Good strong none C L K s' → post () s') : Safe strong (iupdate ip) s post :=
  safe_iupdate h (h.locked ip hk) (Or.inl rfl) fun s' h' _ => hp s' h'

lemma safe_putUnlocked {post : Unit → State → Prop} (h : Good strong none C (ip :: L) K s)
    (hp : ∀ s', Good strong none C L [] s' → post () s') : Safe strong (iunlockput ip) s post :=
  safe_iunlockput h (fun _ hj => by cases hj) (fun hj => by cases hj) hp

lemma safe_putLast {post : Unit → State → Prop} (h : Good strong none C (ip :: L) K s)
    (hp : ∀ s', Good strong none C L [] s' → post () s') : Safe strong (iput ip) s post :=
  safe_iput h (fun _ hj => by cases hj) (fun hj => by cases hj) hp

/-! ### link and unlink -/

lemma safe_linkBad {post : Int → State → Prop} (h : Good strong none C [ip] K s) (hC : C.Ok) (hp : Ends strong C [] post) :
    Safe strong (linkBad ip) s post := by
  refine safe_bind (safe_ilock h Ctx.backed_cons_self fun s₁ h₁ => safe_bind ?_)
  refine safe_setMeta h₁ List.mem_cons_self (fun _ => ⟨rfl, rfl⟩) fun s₂ h₂ => safe_bind ?_
  refine safe_iupdate_clean h₂ List.mem_cons_self fun s₃ h₃ => safe_bind (safe_putUnlocked h₃ fun s₄ h₄ => safe_bind ?_)
  exact safe_commitTrans h₄ fun s₅ h₅ => wp_pure (hp _ _ _ rfl hC h₅)

lemma safe_linkTarget {post : Int → State → Prop} (h : Good strong none C [ip] K s) (hC : C.Ok) (hpr : p ∈ C.procs)
    (hp : Ends strong C [] post) : Safe strong (linkTarget p ip path) s post := by
  refine safe_bind (safe_nameiparent h hpr (fun s₁ h₁ => safe_linkBad h₁ hC hp) fun dp name s₁ h₁ => ?_)
  refine safe_bind (safe_ilock h₁ Ctx.backed_cons_self fun s₂ h₂ => safe_bind (safe_look (safe_bind ?_)))
  refine safe_dirlink h₂ List.mem_cons_self fun r s₃ h₃ => ?_
  split_ifs
  · refine safe_bind (safe_putUnlocked h₃ fun s₄ h₄ => safe_bind (safe_putLast h₄ fun s₅ h₅ => safe_bind ?_))
    exact safe_commitTrans h₅ fun s₆ h₆ => wp_pure (hp _ _ _ rfl hC h₆)
  · exact safe_bind (safe_putUnlocked h₃ fun s₄ h₄ => safe_linkBad h₄ hC hp)

lemma safe_sysLink {old new : Option Name} {post : Int → State → Prop} (h : Good strong none C [] [] s) (hC : C.Ok)
    (hpr : p ∈ C.procs) (hp : Ends strong C [] post) : Safe strong (sysLink p old new) s post := by
  cases old with
  | none => exact wp_pure (hp _ _ _ rfl hC h)
  | some old =>
    cases new with
    | none => exact wp_pure (hp _ _ _ rfl hC h)
    | some new =>
      refine safe_bind (safe_namei h hpr (fun s₁ h₁ => wp_pure (hp _ _ _ rfl hC h₁)) fun ip s₁ h₁ => ?_)
      refine safe_bind (safe_beginTrans h₁ fun s₂ h₂ => safe_bind (safe_ilock h₂ Ctx.backed_cons_self fun s₃ h₃ => ?_))
      refine safe_bind (safe_inode ?_)
      split_ifs
      · refine safe_bind (safe_putUnlocked h₃ fun s₄ h₄ => safe_bind ?_)
        exact safe_commitTrans h₄ fun s₅ h₅ => wp_pure (hp _ _ _ rfl hC h₅)
      · refine safe_bind (safe_setMeta h₃ List.mem_cons_self (fun _ => ⟨rfl, rfl⟩) fun s₄ h₄ => safe_bind ?_)
        refine safe_iupdate_clean h₄ List.mem_cons_self fun s₅ h₅ => safe_bind ?_
        refine safe_iunlock h₅ (h₅.live List.mem_cons_self) fun s₆ h₆ => ?_
        exact safe_linkTarget h₆ hC hpr hp

lemma safe_isdirempty {post : Bool → State → Prop} (h : Good strong none C L K s) (hk : dp ∈ K)
    (hp : ∀ r s', Good strong none C L K s' → post r s') : Safe strong (isdirempty dp) s post := by
  have hloop : ∀ n off {s}, Good strong none C L K s → Safe strong (isdiremptyFrom dp off n) s post := by
    intro n
    induction n with
    | zero => exact fun off s h => wp_pure (hp _ _ h)
    | succ n ih =>
      intro off s h
      refine safe_bind (safe_readDirent h hk (by decide) fun de s₁ h₁ => ?_)
      split_ifs
      · exact wp_pure (hp _ _ h₁)
      · exact ih _ h₁
  exact safe_bind (safe_inode (hloop _ _ h))

lemma safe_unlinkBad {post : Int → State → Prop} (h : Good strong none C [dp] K s) (hC : C.Ok) (hp : Ends strong C [] post) :
    Safe strong (unlinkBad dp) s post := by
  refine safe_bind (safe_putUnlocked h fun s₁ h₁ => safe_bind ?_)
  exact safe_commitTrans h₁ fun s₂ h₂ => wp_pure (hp _ _ _ rfl hC h₂)

lemma safe_unlinkDotdot {post : Unit → State → Prop} (h : Good strong none C L K s) (hd : dp ∈ K)
    (hp : ∀ s', Good strong none C L K s' → post () s') : Safe strong (unlinkDotdot dp ip) s post := by
  refine safe_bind (safe_inode ?_)
  split_ifs
  · refine safe_bind (safe_setMeta h hd (fun _ => ⟨rfl, rfl⟩) fun s₁ h₁ => ?_)
    exact safe_iupdate_clean h₁ hd hp
  · exact wp_pure (hp _ h)

lemma safe_unlinkEntry {off : ℕ} {post : Int → State → Prop} (h : Good strong none C [ip, dp] [ip, dp] s) (hC : C.Ok)
    (hp : Ends strong C [] post) : Safe strong (unlinkEntry dp ip off) s post := by
  have hd : dp ∈ [ip, dp] := by simp
  refine safe_bind (safe_writei h hd fun r s₁ h₁ => ?_)
  split_ifs
  · exact safe_panic (by decide)
  · refine safe_bind (safe_unlinkDotdot h₁ hd fun s₂ h₂ => safe_bind ?_)
    refine safe_iunlockput (J := [ip]) h₂.swap (fun _ hj => by simp_all) (fun hj => ?_) fun s₃ h₃ => ?_
    · rw [List.mem_singleton.1 hj]
      exact Ctx.backed_cons_self
    · refine safe_bind (safe_setMeta h₃ List.mem_cons_self (fun _ => ⟨rfl, rfl⟩) fun s₄ h₄ => safe_bind ?_)
      refine safe_iupdate_clean h₄ List.mem_cons_self fun s₅ h₅ => safe_bind (safe_putUnlocked h₅ fun s₆ h₆ => safe_bind ?_)
      exact safe_commitTrans h₆ fun s₇ h₇ => wp_pure (hp _ _ _ rfl hC h₇)

lemma safe_sysUnlink {path : Option Name} {post : Int → State → Prop} (h : Good strong none C [] [] s) (hC : C.Ok)
    (hpr : p ∈ C.procs) (hp : Ends strong C [] post) : Safe strong (sysUnlink p path) s post := by
  cases path with
  | none => exact wp_pure (hp _ _ _ rfl hC h)
  | some path =>
    refine safe_bind (safe_nameiparent h hpr (fun s₁ h₁ => wp_pure (hp _ _ _ rfl hC h₁)) fun dp name s₁ h₁ => ?_)
    refine safe_bind (safe_beginTrans h₁ fun s₂ h₂ => safe_bind (safe_ilock h₂ Ctx.backed_cons_self fun s₃ h₃ => ?_))
    split_ifs
    · exact safe_unlinkBad h₃ hC hp
    · refine safe_bind (safe_dirlookup h₃ List.mem_cons_self (fun s₄ h₄ => safe_unlinkBad h₄ hC hp) fun ip off s₄ h₄ => ?_)
      refine safe_bind (safe_ilock h₄ Ctx.backed_cons_self fun s₅ h₅ => safe_bind (safe_inode ?_))
      split_ifs
      · exact safe_panic (by decide)
      · refine safe_bind (safe_isdirempty h₅ List.mem_cons_self fun r s₆ h₆ => ?_)
        split_ifs
        · exact safe_unlinkEntry h₆ hC hp
        · exact safe_bind (safe_putUnlocked h₆ fun s₇ h₇ => safe_unlinkBad h₇ hC hp)
      · exact safe_unlinkEntry h₅ hC hp

/-! ### create -/

lemma safe_createDots {post : Unit → State → Prop} (h : Good strong none C L K s) (hd : dp ∈ K) (hi : ip ∈ K)
    (hp : ∀ s', Good strong none C L K s' → post () s') : Safe strong (createDots dp ip) s post := by
  refine safe_bind (safe_setMeta h hd (fun _ => ⟨rfl, rfl⟩) fun s₁ h₁ => safe_bind (safe_iupdate_clean h₁ hd fun s₂ h₂ => ?_))
  refine safe_bind (safe_look (safe_bind (safe_look (safe_bind (safe_dirlink h₂ hi fun r s₃ h₃ => ?_)))))
  split_ifs
  · exact safe_panic (by decide)
  · refine safe_bind (safe_dirlink h₃ hi fun r s₄ h₄ => ?_)
    split_ifs
    · exact safe_panic (by decide)
    · exact wp_pure (hp _ h₄)

lemma safe_createEntry {post : Option ℕ → State → Prop} (h : Good strong none C [ip, dp] [ip, dp] s)
    (hp : ∀ s', Good strong none C [ip] [ip] s' → post (some ip) s') : Safe strong (createEntry dp ip name) s post := by
  have hd : dp ∈ [ip, dp] := by simp
  refine safe_bind (safe_look (safe_bind (safe_dirlink h hd fun r s₁ h₁ => ?_)))
  split_ifs
  · exact safe_panic (by decide)
  · refine safe_bind (safe_iunlockput (J := [ip]) h₁.swap (fun _ hj => by simp_all) (fun hj => ?_) fun s₂ h₂ => ?_)
    · rw [List.mem_singleton.1 hj]
      exact Ctx.backed_cons_self
    · exact wp_pure (hp _ h₂)

lemma safe_createNew {type major minor : Int16} {post : Option ℕ → State → Prop} (h : Good strong none C [ip, dp] [dp] s)
    (hp : ∀ s', Good strong none C [ip] [ip] s' → post (some ip) s') :
    Safe strong (createNew dp ip name type major minor) s post := by
  refine safe_bind (safe_ilock h Ctx.backed_cons_self fun s₁ h₁ => safe_bind ?_)
  refine safe_setMeta h₁ List.mem_cons_self (fun _ => ⟨rfl, rfl⟩) fun s₂ h₂ => safe_bind ?_
  refine safe_iupdate_clean h₂ List.mem_cons_self fun s₃ h₃ => ?_
  split_ifs
  · exact safe_bind (safe_createDots h₃ (by simp) List.mem_cons_self fun s₄ h₄ => safe_createEntry h₄ hp)
  · exact safe_createEntry h₃ hp

/-- A new inode is returned locked. -/
lemma safe_create {type major minor : Int16} {post : Option ℕ → State → Prop} (h : Good strong none C [] [] s)
    (hpr : p ∈ C.procs) (hnone : ∀ s', Good strong none C [] [] s' → post none s')
    (hsome : ∀ ip s', Good strong none C [ip] [ip] s' → post (some ip) s') :
    Safe strong (create p path type major minor) s post := by
  refine safe_bind (safe_nameiparent h hpr (fun s₁ h₁ => wp_pure (hnone _ h₁)) fun dp name s₁ h₁ => ?_)
  refine safe_bind (safe_ilock h₁ Ctx.backed_cons_self fun s₂ h₂ => safe_bind ?_)
  refine safe_dirlookup h₂ List.mem_cons_self (fun s₃ h₃ => ?_) fun ip off s₃ h₃ => ?_
  · exact safe_bind (safe_ialloc h₃ fun ip s₄ h₄ => safe_createNew h₄ (hsome ip))
  · refine safe_bind (safe_putUnlocked h₃.swap fun s₄ h₄ => safe_bind ?_)
    refine safe_ilock h₄ Ctx.backed_cons_self fun s₅ h₅ => safe_bind (safe_inode ?_)
    split_ifs
    · exact wp_pure (hsome _ _ h₅)
    · exact safe_bind (safe_putUnlocked h₅ fun s₆ h₆ => wp_pure (hnone _ h₆))

/-! ### open -/

lemma safe_openFile {omode : ℕ} {post : Int → State → Prop} (h : Good strong none C [ip] [ip] s) (hC : C.Ok)
    (hp : Ends strong C [] post) : Safe strong (openFile p ip omode) s post := by
  refine safe_bind (safe_filealloc h hC ?_ fun f s₁ hf ht h₁ => ?_)
  · exact safe_bind (safe_putUnlocked h fun s₁ h₁ => wp_pure (hp _ _ _ rfl hC h₁))
  · generalize hC₁ : C.setFile f { C.file f with ref := 1 } = C₁ at h₁
    have hok₁ : C₁.Ok := by
      rw [← hC₁]
      exact hC.setFile fun h => absurd h ht
    have hpr₁ : C₁.procs = C.procs := by rw [← hC₁]; rfl
    have hf₁ : C₁.file f = { C.file f with ref := 1 } := by
      rw [← hC₁]
      exact if_pos rfl
    refine safe_bind (safe_fdalloc h₁ hok₁ ?_ fun fd C₂ s₂ e₂ ef₂ hC₂ h₂ => ?_)
    · refine safe_bind (safe_fileclose h₁ hok₁ fun C₂ s₂ e₂ _ hC₂ h₂ => safe_bind (safe_putUnlocked h₂ fun s₃ h₃ => ?_))
      exact wp_pure (hp _ _ _ (e₂.trans hpr₁) hC₂ h₃)
    · refine safe_bind (safe_iunlock h₂ (h₂.live List.mem_cons_self) fun s₃ h₃ => safe_bind (safe_change (fun _ h => h) ?_))
      have hf₂ : C₂.file f = { C.file f with ref := 1 } := by rw [ef₂, hf₁]
      rw [show s₃.file = C₂.file from h₃.file]
      refine wp_pure (hp _ (C₂.setFile f _) _ (e₂.trans hpr₁) (hC₂.setFile fun _ => ⟨hf, ?_⟩) (At.done (At.setFile h₃ fun jp => ?_)))
      · rw [hf₂]
        exact Nat.one_pos
      · have h0 : Ctx.adds (C₂.file f) jp = 0 := if_neg fun h1 => ht (by rw [← h1.1, hf₂])
        rw [List.count_nil, List.count_singleton, Nat.add_zero, ← Nat.add_zero ((C₂.setFile f _).holders jp), ← h0,
          Ctx.holders_setFile hf, h0]
        simp [Ctx.adds]

lemma safe_sysOpen {path : Option Name} {omode : ℕ} {post : Int → State → Prop} (h : Good strong none C [] [] s) (hC : C.Ok)
    (hpr : p ∈ C.procs) (hp : Ends strong C [] post) : Safe strong (sysOpen p path omode) s post := by
  cases path with
  | none => exact wp_pure (hp _ _ _ rfl hC h)
  | some path =>
    show Safe strong (if omode &&& O_CREATE ≠ 0 then _ else _) s post
    split_ifs
    · refine safe_bind (safe_beginTrans h fun s₁ h₁ => safe_bind (safe_create h₁ hpr (fun s₂ h₂ => ?_) fun ip s₂ h₂ => ?_))
      · exact safe_bind (safe_commitTrans h₂ fun s₃ h₃ => wp_pure (hp _ _ _ rfl hC h₃))
      · exact safe_bind (safe_commitTrans h₂ fun s₃ h₃ => safe_openFile h₃ hC hp)
    · refine safe_bind (safe_namei h hpr (fun s₁ h₁ => wp_pure (hp _ _ _ rfl hC h₁)) fun ip s₁ h₁ => ?_)
      refine safe_bind (safe_ilock h₁ Ctx.backed_cons_self fun s₂ h₂ => safe_bind (safe_inode ?_))
      split_ifs
      · exact safe_bind (safe_putUnlocked h₂ fun s₃ h₃ => wp_pure (hp _ _ _ rfl hC h₃))
      · exact safe_openFile h₂ hC hp

lemma safe_closeNone {post : Int → State → Prop} (h : Good strong none C [] [] s) (hC : C.Ok) (hp : Ends strong C [] post) :
    Safe strong (closeNew none) s post :=
  safe_bind (safe_commitTrans h fun _ h₁ => wp_pure (hp _ _ _ rfl hC h₁))

lemma safe_closeSome {post : Int → State → Prop} (h : Good strong none C [ip] K s) (hC : C.Ok) (hp : Ends strong C [] post) :
    Safe strong (closeNew (some ip)) s post :=
  safe_bind (safe_putUnlocked h fun _ h₁ => safe_bind (safe_commitTrans h₁ fun _ h₂ => wp_pure (hp _ _ _ rfl hC h₂)))

lemma safe_sysMkdir {path : Option Name} {post : Int → State → Prop} (h : Good strong none C [] [] s) (hC : C.Ok)
    (hpr : p ∈ C.procs) (hp : Ends strong C [] post) : Safe strong (sysMkdir p path) s post := by
  refine safe_bind (safe_beginTrans h fun s₁ h₁ => ?_)
  cases path with
  | none => exact safe_closeNone h₁ hC hp
  | some path =>
    exact safe_bind (safe_create h₁ hpr (fun s₂ h₂ => safe_closeNone h₂ hC hp) fun ip s₂ h₂ => safe_closeSome h₂ hC hp)

lemma safe_sysMknod {path : Option Name} {major minor : Int16} {post : Int → State → Prop}
    (h : Good strong none C [] [] s) (hC : C.Ok) (hpr : p ∈ C.procs) (hp : Ends strong C [] post) :
    Safe strong (sysMknod p path major minor) s post := by
  refine safe_bind (safe_beginTrans h fun s₁ h₁ => ?_)
  cases path with
  | none => exact safe_closeNone h₁ hC hp
  | some path =>
    exact safe_bind (safe_create h₁ hpr (fun s₂ h₂ => safe_closeNone h₂ hC hp) fun ip s₂ h₂ => safe_closeSome h₂ hC hp)

/-! ### chdir, fork, exit and exec -/

lemma Ctx.holders_cons {l : List ℕ} (hpr : C.procs.Perm (p :: l)) (jp : ℕ) :
    C.holders jp = { C with procs := l }.holders jp + if (C.proc p).cwd = jp then 1 else 0 := by
  unfold holders
  rw [hpr.countP_eq, List.countP_cons]
  simp only [decide_eq_true_eq]
  omega

lemma At.takeCwd (h : At strong dirty C L K s) (hpr : p ∈ C.procs) :
    At strong dirty { C with procs := C.procs.erase p } ((C.proc p).cwd :: L) K s := by
  refine h.ctx rfl rfl rfl rfl rfl h.file h.proc fun jp => ?_
  rw [Ctx.holders_cons (List.perm_cons_erase hpr), List.count_cons]
  simp only [beq_iff_eq]
  omega

/-- A reference of the call becomes the working directory of a process that is there from now on. -/
lemma At.giveCwd {l : List ℕ} (h : At strong dirty C (ip :: L) K s) (hno : p ∉ C.procs) (hl : l.Perm (p :: C.procs)) {v : Proc}
    (hv : v.cwd = ip) : At strong dirty { C.setProc p v with procs := l } L K (s.setProc p v) := by
  refine h.ctx rfl rfl rfl rfl rfl h.file ?_ fun jp => ?_
  · show (fun x => if x = p then v else s.proc x) = _
    rw [h.proc]
    rfl
  · have hself : (C.setProc p v).proc p = v := if_pos rfl
    have hsame : (C.setProc p v).holders jp = C.holders jp := Ctx.holders_setProc_same (fun h => absurd h hno) jp
    refine (congrArg (· + L.count jp) (Ctx.holders_cons (C := { C.setProc p v with procs := l }) hl jp)).trans ?_
    show (C.setProc p v).holders jp + (if ((C.setProc p v).proc p).cwd = jp then 1 else 0) + L.count jp = _
    rw [hself, hv, hsame, List.count_cons]
    simp only [beq_iff_eq]
    omega

lemma safe_sysChdir {path : Option Name} {post : Int → State → Prop} (h : Good strong none C [] [] s) (hC : C.Ok)
    (hpr : p ∈ C.procs) (hp : Ends strong C [] post) : Safe strong (sysChdir p path) s post := by
  cases path with
  | none => exact wp_pure (hp _ _ _ rfl hC h)
  | some path =>
    refine safe_bind (safe_namei h hpr (fun s₁ h₁ => wp_pure (hp _ _ _ rfl hC h₁)) fun ip s₁ h₁ => ?_)
    refine safe_bind (safe_ilock h₁ Ctx.backed_cons_self fun s₂ h₂ => safe_bind (safe_inode ?_))
    split_ifs
    · exact safe_bind (safe_putUnlocked h₂ fun s₃ h₃ => wp_pure (hp _ _ _ rfl hC h₃))
    · refine safe_bind (safe_iunlock h₂ (h₂.live List.mem_cons_self) fun s₃ h₃ => safe_bind (safe_look (safe_bind ?_)))
      rw [show s₃.proc = C.proc from h₃.proc]
      refine safe_putLast (At.takeCwd h₃ hpr) fun s₄ h₄ => safe_bind (safe_change (fun _ h => h) ?_)
      have hno : p ∉ C.procs.erase p := hC.nodup.not_mem_erase
      refine wp_pure (hp _ _ _ ?_ ?_ (At.giveCwd h₄ hno (List.perm_cons_erase hpr) ?_))
      · rfl
      · exact ⟨hC.nodup, hC.file⟩
      · rfl

lemma safe_forkFiles {child : ℕ} {post : Unit → State → Prop} (n fd : ℕ) (h : Good strong none C [] [] s) (hC : C.Ok)
    (hp : Ends strong C [] post) : Safe strong (forkFiles p child fd n) s post := by
  induction n generalizing fd s C with
  | zero => exact wp_pure (hp _ _ _ rfl hC h)
  | succ n ih =>
    refine safe_bind (safe_bind (safe_look ?_))
    split
    · refine safe_bind (safe_filedup h hC fun C₁ s₁ e₁ _ hC₁ h₁ => safe_setOfile h₁ fun w s₂ _ h₂ => ?_)
      exact ih _ h₂ (hC₁.setProc w) fun r C' s' e => hp r C' s' (e.trans e₁)
    · exact wp_pure (ih _ h hC hp)

/-- The child is there from now on. -/
lemma safe_fork {child : ℕ} {post : Int → State → Prop} (h : Good strong none C [] [] s) (hC : C.Ok) (hpr : p ∈ C.procs)
    (hno : child ∉ C.procs)
    (hp : ∀ r C' s', C'.procs = child :: C.procs → C'.Ok → Good strong none C' [] [] s' → post r s') :
    Safe strong (fork p child) s post := by
  refine safe_bind (safe_forkFiles _ _ h hC fun _ C₁ s₁ e₁ hC₁ h₁ => safe_bind (safe_look (safe_bind ?_)))
  rw [show s₁.proc = C₁.proc from h₁.proc]
  refine safe_idup h₁ (Ctx.backed_cwd (e₁ ▸ hpr)) fun s₂ h₂ => safe_bind (safe_change (fun _ h => h) ?_)
  have hno₁ : child ∉ C₁.procs := e₁ ▸ hno
  refine wp_pure (hp _ _ _ ?_ ?_ (At.giveCwd h₂ hno₁ (List.Perm.refl _) ?_))
  · show child :: C₁.procs = _
    rw [e₁]
  · exact ⟨List.nodup_cons.2 ⟨hno₁, hC₁.nodup⟩, hC₁.file⟩
  · rfl

lemma safe_exitFiles {post : Unit → State → Prop} (n fd : ℕ) (h : Good strong none C [] [] s) (hC : C.Ok)
    (hp : Ends strong C [] post) : Safe strong (exitFiles p fd n) s post := by
  induction n generalizing fd s C with
  | zero => exact wp_pure (hp _ _ _ rfl hC h)
  | succ n ih =>
    refine safe_bind (safe_bind (safe_look ?_))
    split
    · refine safe_bind (safe_fileclose h hC fun C₁ s₁ e₁ _ hC₁ h₁ => safe_setOfile h₁ fun w s₂ _ h₂ => ?_)
      exact ih _ h₂ (hC₁.setProc w) fun r C' s' e => hp r C' s' (e.trans e₁)
    · exact wp_pure (ih _ h hC hp)

lemma safe_exit {post : Unit → State → Prop} (h : Good strong none C [] [] s) (hC : C.Ok) (hpr : p ∈ C.procs)
    (hp : ∀ C' s', C'.procs = C.procs.erase p → C'.Ok → Good strong none C' [] [] s' → post () s') :
    Safe strong (exit p) s post := by
  refine safe_bind (safe_exitFiles _ _ h hC fun _ C₁ s₁ e₁ hC₁ h₁ => safe_bind (safe_look ?_))
  rw [show s₁.proc = C₁.proc from h₁.proc]
  refine safe_putLast (At.takeCwd h₁ (e₁ ▸ hpr)) fun s₂ h₂ => hp { C₁ with procs := C₁.procs.erase p } _ ?_ ⟨?_, hC₁.file⟩ h₂
  · show C₁.procs.erase p = _
    rw [e₁]
  · exact hC₁.nodup.erase p

lemma safe_loaduvm {post : Bool → State → Prop} (hk : ip ∈ K) (hp : ∀ r s', Good strong none C L K s' → post r s')
    (fuel off n : ℕ) (h : Good strong none C L K s) : Safe strong (loaduvm ip off fuel n) s post := by
  induction fuel generalizing off n s with
  | zero => exact wp_pure (hp _ _ h)
  | succ fuel ih =>
    unfold loaduvm
    split_ifs
    · exact wp_pure (hp _ _ h)
    · refine safe_bind (safe_readi h hk fun r s₁ h₁ => ?_)
      cases r with
      | none => exact wp_pure (hp _ _ h₁)
      | some b =>
        show Safe strong (if b.length = min n 4096 then _ else _) s₁ post
        split_ifs
        · exact ih _ _ h₁
        · exact wp_pure (hp _ _ h₁)

lemma safe_execSegments {alloc : ℕ → Bool} {post : Bool → State → Prop} (hk : ip ∈ K)
    (hp : ∀ r s', Good strong none C L K s' → post r s') (n i off : ℕ) (h : Good strong none C L K s) :
    Safe strong (execSegments alloc ip i off n) s post := by
  induction n generalizing i off s with
  | zero => exact wp_pure (hp _ _ h)
  | succ n ih =>
    refine safe_bind (safe_readi h hk fun r s₁ h₁ => ?_)
    cases r with
    | none => exact wp_pure (hp _ _ h₁)
    | some ph =>
      show Safe strong (if ph.length ≠ 32 then _ else _) s₁ post
      split_ifs
      · exact wp_pure (hp _ _ h₁)
      · exact ih _ _ h₁
      · exact wp_pure (hp _ _ h₁)
      · exact wp_pure (hp _ _ h₁)
      · refine safe_bind (safe_loaduvm hk (fun r s₂ h₂ => ?_) _ _ _ h₁)
        split_ifs
        · exact ih _ _ h₂
        · exact wp_pure (hp _ _ h₂)

lemma safe_exec {alloc : ℕ → Bool} {post : Int → State → Prop} (h : Good strong none C [] [] s) (hC : C.Ok)
    (hpr : p ∈ C.procs) (hp : Ends strong C [] post) : Safe strong (exec p path alloc) s post := by
  refine safe_bind (safe_namei h hpr (fun s₁ h₁ => wp_pure (hp _ _ _ rfl hC h₁)) fun ip s₁ h₁ => ?_)
  refine safe_bind (safe_ilock h₁ Ctx.backed_cons_self fun s₂ h₂ => safe_bind (safe_readi h₂ List.mem_cons_self fun r s₃ h₃ => ?_))
  have hput : ∀ {r s}, Good strong none C [ip] [ip] s → Safe strong (do iunlockput ip; return r) s post := fun h =>
    safe_bind (safe_putUnlocked h fun s₄ h₄ => wp_pure (hp _ _ _ rfl hC h₄))
  cases r with
  | none => exact hput h₃
  | some elf =>
    show Safe strong (if elf.length < 52 ∨ uintAt elf 0 ≠ 0x464C457F then _ else _) s₃ post
    split_ifs
    · exact hput h₃
    · exact safe_bind (safe_execSegments List.mem_cons_self (fun r s₄ h₄ => hput h₄) _ _ _ h₃)

end Files

end Os132

import Os132.Files.Mapped

/-!
# Directories and paths

What a lookup returns is a reference that the call holds. The loops keep the invariant: they read
entries, or put one inode and get the next.
-/

namespace Os132

namespace Files

open Prog

variable {α β : Type} {strong : Prop} {dirty dirty' : Option ℕ} {C : Ctx} {L L' K K' : List ℕ} {s s' : State}
  {ip jp dp i k b p : ℕ} {name path : Name}

lemma Ctx.backed_cons_self : C.Backed (ip :: L) ip := by
  rw [Ctx.Backed, List.count_cons_self]
  omega

lemma Ctx.Backed.cons (h : C.Backed L ip) : C.Backed (jp :: L) ip := by
  unfold Ctx.Backed at h ⊢
  rw [List.count_cons]
  omega

lemma Ctx.backed_cwd (hp : p ∈ C.procs) : C.Backed L (C.proc p).cwd := by
  have : 0 < C.procs.countP fun q => (C.proc q).cwd = (C.proc p).cwd :=
    List.countP_pos_iff.2 ⟨p, hp, by simp⟩
  unfold Ctx.Backed Ctx.holders
  omega

lemma safe_readDirent {off : ℕ} {msg : String} {post : Dirent → State → Prop} (h : Good strong none C L K s) (hk : dp ∈ K)
    (hm : msg ≠ "freeing free block") (hp : ∀ de s', Good strong none C L K s' → post de s') :
    Safe strong (readDirent dp off msg) s post := by
  refine safe_bind (safe_readi h hk fun r s₁ h₁ => ?_)
  cases r with
  | none => exact safe_panic hm
  | some b =>
    show Safe strong (if b.length = DIRENT then pure (Dirent.ofBytes b) else panic msg) s₁ post
    split_ifs
    · exact wp_pure (hp _ _ h₁)
    · exact safe_panic hm

lemma safe_dirlookupFrom {post : Option (ℕ × ℕ) → State → Prop} (hk : dp ∈ K)
    (hnone : ∀ s', Good strong none C L K s' → post none s')
    (hsome : ∀ ip off s', Good strong none C (ip :: L) K s' → post (some (ip, off)) s') (n off : ℕ)
    (h : Good strong none C L K s) : Safe strong (dirlookupFrom dp name off n) s post := by
  induction n generalizing off s with
  | zero => exact wp_pure (hnone _ h)
  | succ n ih =>
    refine safe_bind (safe_readDirent h hk (by decide) fun de s₁ h₁ => ?_)
    split
    · exact safe_bind (safe_iget h₁ fun ip s₂ h₂ => wp_pure (hsome _ _ _ h₂))
    · exact ih _ h₁

lemma safe_dirlookup {post : Option (ℕ × ℕ) → State → Prop} (h : Good strong none C L K s) (hk : dp ∈ K)
    (hnone : ∀ s', Good strong none C L K s' → post none s')
    (hsome : ∀ ip off s', Good strong none C (ip :: L) K s' → post (some (ip, off)) s') :
    Safe strong (dirlookup dp name) s post := by
  refine safe_bind (safe_inode ?_)
  split_ifs
  · exact safe_panic (by decide)
  · exact safe_dirlookupFrom hk hnone hsome _ _ h

lemma safe_emptyFrom {post : ℕ → State → Prop} (hk : dp ∈ K) (hp : ∀ off s', Good strong none C L K s' → post off s')
    (n off : ℕ) (h : Good strong none C L K s) : Safe strong (emptyFrom dp off n) s post := by
  induction n generalizing off s with
  | zero => exact wp_pure (hp _ _ h)
  | succ n ih =>
    refine safe_bind (safe_readDirent h hk (by decide) fun de s₁ h₁ => ?_)
    split_ifs
    · exact wp_pure (hp _ _ h₁)
    · exact ih _ h₁

lemma safe_dirlink {inum : ℕ} {post : Bool → State → Prop} (h : Good strong none C L K s) (hk : dp ∈ K)
    (hp : ∀ r s', Good strong none C L K s' → post r s') : Safe strong (dirlink dp name inum) s post := by
  refine safe_bind (safe_dirlookup h hk (fun s₁ h₁ => ?_) fun ip off s₁ h₁ => ?_)
  · refine safe_bind (safe_inode (safe_bind (safe_emptyFrom hk (fun off s₂ h₂ => ?_) _ _ h₁)))
    refine safe_bind (safe_writei h₂ hk fun r s₃ h₃ => ?_)
    split_ifs
    · exact wp_pure (hp _ _ h₃)
    · exact safe_panic (by decide)
  · exact safe_bind (safe_iput h₁ (fun _ hj => hj) (fun hi => h.backed ip hi) fun s₂ h₂ => wp_pure (hp _ _ h₂))

lemma At.forget (h : At strong dirty C (ip :: L) [] s) : At strong dirty C L [] s := by
  refine ⟨h.file, h.proc, h.blocks, fun jp => ?_, fun jp hj => (by cases hj), fun jp hj => (by cases hj)⟩
  have := h.refs jp
  rw [List.count_cons] at this
  omega

lemma At.done (h : At strong dirty C L K s) : At strong dirty C L [] s := h.sub fun jp hj => (by cases hj)

lemma safe_namexFrom {parent : Bool} {post : Option (ℕ × Name) → State → Prop}
    (hnone : ∀ s', Good strong none C L [] s' → post none s')
    (hsome : ∀ ip name s', Good strong none C (ip :: L) [] s' → post (some (ip, name)) s') (fuel ip : ℕ) (path name : Name)
    (h : Good strong none C (ip :: L) [] s) : Safe strong (namexFrom parent fuel ip path name) s post := by
  induction fuel generalizing ip path name s with
  | zero => exact wp_pure (hnone _ h.forget)
  | succ fuel ih =>
    -- no inode is locked between two elements
    have hput : ∀ {s₁}, Good strong none C (ip :: L) [ip] s₁ → Safe strong (do iunlockput ip; return none) s₁ post :=
      fun h₁ => safe_bind (safe_iunlockput (J := []) h₁ (fun _ hj => by cases hj) (fun hj => by cases hj)
        fun s₂ h₂ => wp_pure (hnone _ h₂))
    unfold namexFrom
    cases hs : skipelem path with
    | none =>
      show Safe strong (if parent = true then _ else _) s post
      split_ifs
      · exact safe_bind (safe_iput h (fun _ hj => hj) (fun hj => by cases hj) fun s₁ h₁ => wp_pure (hnone _ h₁))
      · exact wp_pure (hsome _ _ _ h)
    | some e =>
      obtain ⟨elem, rest⟩ := e
      refine safe_bind (safe_ilock h Ctx.backed_cons_self fun s₁ h₁ => safe_bind (safe_inode ?_))
      split_ifs
      · exact hput h₁
      · exact safe_bind (safe_iunlock h₁ (h₁.live List.mem_cons_self) fun s₂ h₂ => wp_pure (hsome _ _ _ h₂.done))
      · refine safe_bind (safe_dirlookup h₁ List.mem_cons_self (fun s₂ h₂ => hput h₂) fun next off s₂ h₂ => ?_)
        refine safe_bind (safe_iunlockput (J := []) h₂.swap (fun _ hj => by cases hj) (fun hj => by cases hj) fun s₃ h₃ => ?_)
        exact ih _ _ _ h₃

lemma safe_namex {parent : Bool} {post : Option (ℕ × Name) → State → Prop} (h : Good strong none C L K s) (hpr : p ∈ C.procs)
    (hnone : ∀ s', Good strong none C L [] s' → post none s')
    (hsome : ∀ ip name s', Good strong none C (ip :: L) [] s' → post (some (ip, name)) s') :
    Safe strong (namex p path parent) s post := by
  unfold namex
  split_ifs
  · exact safe_bind (safe_iget h.done fun ip s₁ h₁ => safe_namexFrom hnone hsome _ _ _ _ h₁)
  · refine safe_bind (safe_look (safe_bind (safe_idup h.done ?_ fun s₁ h₁ => safe_namexFrom hnone hsome _ _ _ _ h₁)))
    rw [show s.proc = C.proc from h.proc]
    exact Ctx.backed_cwd hpr

lemma safe_namei {post : Option ℕ → State → Prop} (h : Good strong none C L K s) (hpr : p ∈ C.procs)
    (hnone : ∀ s', Good strong none C L [] s' → post none s')
    (hsome : ∀ ip s', Good strong none C (ip :: L) [] s' → post (some ip) s') : Safe strong (namei p path) s post :=
  safe_bind (safe_namex h hpr (fun s' h' => wp_pure (hnone s' h')) fun ip _ s' h' => wp_pure (hsome ip s' h'))

lemma safe_nameiparent {post : Option (ℕ × Name) → State → Prop} (h : Good strong none C L K s) (hpr : p ∈ C.procs)
    (hnone : ∀ s', Good strong none C L [] s' → post none s')
    (hsome : ∀ ip name s', Good strong none C (ip :: L) [] s' → post (some (ip, name)) s') :
    Safe strong (nameiparent p path) s post := safe_namex h hpr hnone hsome

end Files

end Os132

import Os132.Files.Lookup

/-!
# Walks along paths

What `namei` and `nameiparent` return, in terms of the tree of directories: a path is split on runs of
slashes, and its elements, cut to `DIRSIZ` bytes, are looked up one after the other.
-/

namespace Os132

namespace Files

open Prog

variable {stop : Stop → Prop} {s s' s₀ : State} {d : Dinode} {ip jp i j k off : ℕ} {name path : Name} {L L' : List ℕ}
  {K K' : Option ℕ}

/-! ### The tree -/

/-- The inode is allocated; one without a link is still in use. -/
def Allocated (s : State) (i : ℕ) : Prop :=
  (view s i).type ≠ 0 ∧ ((view s i).nlink = 0 → ∃ ip, Live s ip ∧ (s.icache ip).inum = i)

/-- Every directory can be read and its entries name allocated inodes. -/
structure Tree (s : State) : Prop where
  root : Allocated s ROOTINO
  legible : ∀ i, (view s i).type = T_DIR → Legible s (view s i)
  entries : ∀ i, (view s i).type = T_DIR → ∀ j, j < (view s i).size / DIRENT → (entry s (view s i) j).inum ≠ 0 →
    Allocated s (entry s (view s i) j).inum

/-- No other process is inside the file system: no buffer is busy and no inode is locked. -/
structure Quiet (s : State) : Prop where
  held : s.held = []
  uniq : Uniq s
  busy : ∀ ip, Live s ip → (s.icache ip).busy = false

/-- The elements of a path. -/
def elements (path : Name) : List Name := ((path.splitOn slash).filter (· ≠ [])).map (·.take DIRSIZ)

/-- The inode to which a directory binds a name. -/
def child (s : State) (i : ℕ) (name : Name) : Option ℕ :=
  if (view s i).type = T_DIR then (findEntry s (view s i) name).map fun j => (entry s (view s i) j).inum else none

/-- The inode to which names lead from `i`. -/
def resolve (s : State) (i : ℕ) (names : List Name) : Option ℕ := names.foldlM (child s) i

/-- The directory to which all names but the last lead, and the last name. -/
def resolveParent (s : State) (i : ℕ) (names : List Name) : Option (ℕ × Name) := do
  let last ← names.getLast?
  let j ← resolve s i names.dropLast
  if (view s j).type = T_DIR then some (j, last) else none

/-- At some prefix of the names the walk ends: the next name is missing, or there is no directory to look it up in. -/
def Missing (s : State) (i : ℕ) (names : List Name) : Prop :=
  ∃ before name after j, names = before ++ name :: after ∧ resolve s i before = some j ∧
    ((view s j).type ≠ T_DIR ∨ findEntry s (view s j) name = none)

/-- Where a walk starts. -/
def start (s : State) (p : ℕ) (path : Name) : ℕ :=
  if path.head? = some slash then ROOTINO else (s.icache (s.proc p).cwd).inum

/-- At most one place in the inode cache is free. -/
def Crowded (s : State) : Prop := ∃ jp, ∀ ip, ip < NINODE → ip ≠ jp → 0 < (s.icache ip).ref

lemma resolve_cons {names : List Name} : resolve s i (name :: names) = (child s i name).bind fun j => resolve s j names := by
  unfold resolve
  rw [List.foldlM_cons]
  rfl

lemma resolve_append {names more : List Name} :
    resolve s i (names ++ more) = (resolve s i names).bind fun j => resolve s j more := by
  unfold resolve
  rw [List.foldlM_append]
  rfl

lemma child_eq_none : child s i name = none ↔ (view s i).type ≠ T_DIR ∨ findEntry s (view s i) name = none := by
  unfold child
  split_ifs with h
  · simp [h]
  · simp [h]

/-- The walk ends early just if some prefix leads nowhere. -/
lemma missing_iff {names : List Name} : Missing s i names ↔ resolve s i names = none := by
  constructor
  · rintro ⟨before, name, after, j, rfl, hr, hc⟩
    rw [resolve_append, hr, Option.bind_some, resolve_cons, child_eq_none.2 hc, Option.bind_none]
  · intro h
    induction names generalizing i with
    | nil => cases h
    | cons name names ih =>
      rw [resolve_cons] at h
      cases hc : child s i name with
      | none => exact ⟨[], name, names, i, rfl, rfl, child_eq_none.1 hc⟩
      | some j =>
        rw [hc, Option.bind_some] at h
        obtain ⟨before, e, after, k, he, hr, hk⟩ := ih h
        refine ⟨name :: before, e, after, k, by rw [he, List.cons_append], ?_, hk⟩
        rw [resolve_cons, hc, Option.bind_some, hr]

/-- There is no last name, or the others do not lead to a directory. -/
lemma resolveParent_eq_none {names : List Name} : resolveParent s i names = none ↔
    names = [] ∨ ¬ ∃ j, resolve s i names.dropLast = some j ∧ (view s j).type = T_DIR := by
  unfold resolveParent
  cases hl : names.getLast? with
  | none => simp [List.getLast?_eq_none_iff.1 hl]
  | some last =>
    have hne : names ≠ [] := by
      rintro rfl
      cases hl
    cases hr : resolve s i names.dropLast with
    | none => simp
    | some j => simp [hne]

/-! ### Elements -/

lemma splitOn_slash_cons (path : Name) : ((slash :: path).splitOn slash) = [] :: path.splitOn slash := by
  simp [List.splitOn, List.splitOnP_cons_eq_if_modifyHead]

/-- Slashes in front do not matter. -/
lemma elements_dropWhile : elements (path.dropWhile (· = slash)) = elements path := by
  induction path with
  | nil => rfl
  | cons c path ih =>
    rw [List.dropWhile_cons]
    split_ifs with hc
    · obtain rfl : c = slash := by simpa using hc
      rw [ih]
      unfold elements
      rw [splitOn_slash_cons, List.filter_cons_of_neg (by simp)]
    · rfl

/-- The first piece of a path is what stands before the first slash. -/
lemma splitOn_slash_eq (path : Name) : path.splitOn slash = path.takeWhile (· ≠ slash) ::
    match path.dropWhile (· ≠ slash) with
    | [] => []
    | _ :: rest => rest.splitOn slash := by
  induction path with
  | nil => rfl
  | cons c path ih =>
    by_cases hc : c = slash
    · subst hc
      rw [splitOn_slash_cons]
      simp
    · have : (c :: path).splitOn slash = (path.splitOn slash).modifyHead (List.cons c) := by
        simp [List.splitOn, List.splitOnP_cons_eq_if_modifyHead, hc]
      rw [this, ih]
      simp [hc]

lemma elements_nil : elements [] = [] := by
  simp [elements, List.splitOn]

/-- `skipelem` takes the first element off. -/
lemma elements_eq : elements path = match skipelem path with
    | none => []
    | some (name, rest) => name :: elements rest := by
  rw [← elements_dropWhile]
  unfold skipelem
  generalize hp : path.dropWhile (· = slash) = p
  have hhead : ∀ c t, p = c :: t → c ≠ slash := by
    rintro c t rfl
    have := List.head?_dropWhile_not (fun x => decide (x = slash)) path
    simp only [hp, List.head?_cons] at this
    simpa using this
  cases p with
  | nil => simp [elements_nil]
  | cons c t =>
    have hc := hhead c t rfl
    simp only [reduceCtorEq, if_false]
    rw [elements_dropWhile]
    unfold elements
    rw [splitOn_slash_eq (c :: t)]
    simp only [List.takeWhile_cons, hc, ne_eq, not_false_eq_true, decide_true, if_true, List.dropWhile_cons]
    rw [List.filter_cons_of_pos (by simp), List.map_cons]
    congr 1
    cases hd : List.dropWhile (fun x => decide ¬ x = slash) t with
    | nil => simp [List.splitOn]
    | cons x rest =>
      have := List.head?_dropWhile_not (fun x => decide ¬ x = slash) t
      rw [hd, List.head?_cons] at this
      obtain rfl : x = slash := by simpa using this
      rw [splitOn_slash_cons, List.filter_cons_of_neg (by simp)]

/-- What is left behind the first element starts with the next one. -/
lemma skipelem_rest {rest : Name} (h : skipelem path = some (name, rest)) :
    rest.length < path.length ∧ (elements rest = [] ↔ rest = []) := by
  unfold skipelem at h
  generalize hp : path.dropWhile (· = slash) = p at h
  have hle : p.length ≤ path.length := hp ▸ (List.dropWhile_sublist _).length_le
  cases p with
  | nil => simp at h
  | cons c t =>
    simp only [reduceCtorEq, if_false, Option.some.injEq, Prod.mk.injEq] at h
    obtain ⟨-, rfl⟩ := h
    have hc : c ≠ slash := by
      have := List.head?_dropWhile_not (fun x => decide (x = slash)) path
      rw [hp, List.head?_cons] at this
      simpa using this
    constructor
    · rw [List.dropWhile_cons_of_pos (by simpa using hc)]
      have h1 := (List.dropWhile_sublist (fun x => decide (x = slash)) (l := List.dropWhile (fun x => decide (x ≠ slash)) t)).length_le
      have h2 := (List.dropWhile_sublist (fun x => decide (x ≠ slash)) (l := t)).length_le
      rw [List.length_cons] at hle
      omega
    · refine ⟨fun h => ?_, fun h => by rw [h, elements_nil]⟩
      generalize hq : List.dropWhile (fun x => decide (x ≠ slash)) (c :: t) = q at h ⊢
      cases hr : q.dropWhile (fun x => decide (x = slash)) with
      | nil => rfl
      | cons x rest =>
        have hx : x ≠ slash := by
          have := List.head?_dropWhile_not (fun x => decide (x = slash)) q
          rw [hr, List.head?_cons] at this
          simpa using this
        rw [hr] at h
        unfold elements at h
        rw [splitOn_slash_eq, List.takeWhile_cons_of_pos (by simpa using hx), List.filter_cons_of_pos (by simp)] at h
        cases h

/-! ### The inode cache on the way -/

/-- The state on a walk that began in `s₀` and holds the references `L`; the inode at `K` is locked. -/
structure Walk (s₀ : State) (L : List ℕ) (K : Option ℕ) (s : State) : Prop where
  dinode : s.dinode = s₀.dinode
  data : s.data = s₀.data
  held : s.held = []
  uniq : Uniq s
  refs : ∀ ip, refs s ip = refs s₀ ip + L.count ip
  kept : ∀ ip, Live s₀ ip → (s.icache ip).inum = (s₀.icache ip).inum ∧ ((s₀.icache ip).valid = true → (s.icache ip).valid = true)
  good : ∀ ip, Loaded s ip → (s.icache ip).d = view s₀ (s.icache ip).inum
  busy : ∀ ip, Live s ip → ((s.icache ip).busy = true ↔ K = some ip)

lemma live_iff : Live s ip ↔ 0 < refs s ip := by
  unfold Live refs
  split_ifs with h
  · simp [h]
  · simp [h]

lemma Quiet.walk (h : Quiet s) : Walk s [] none s := by
  refine ⟨rfl, rfl, h.held, h.uniq, fun ip => by simp, fun ip _ => ⟨rfl, id⟩, fun ip hl => ?_, fun ip hl => ?_⟩
  · rw [view_loaded h.uniq hl]
  · simp [h.busy ip hl]

namespace Walk

lemma live (h : Walk s₀ L K s) (hip : ip ∈ L) : Live s ip := by
  have := List.count_pos_iff.2 hip
  rw [live_iff, h.refs]
  omega

lemma live_start (h : Walk s₀ L K s) (hip : Live s₀ ip) : Live s ip := by
  rw [live_iff] at hip ⊢
  rw [h.refs]
  omega

/-- One place in the inode cache changes. -/
lemma set (h : Walk s₀ L K s) {v : Inode} (hip : ip < NINODE)
    (hu : 0 < v.ref → ∀ jp, jp ≠ ip → Live s jp → (s.icache jp).inum ≠ v.inum)
    (hk : Live s₀ ip → v.inum = (s₀.icache ip).inum ∧ ((s₀.icache ip).valid = true → v.valid = true))
    (hr : v.ref = Files.refs s₀ ip + L'.count ip) (hL : ∀ jp, jp ≠ ip → L'.count jp = L.count jp)
    (hg : v.valid = true → v.d = view s₀ v.inum) (hb : v.busy = true ↔ K' = some ip)
    (hK : ∀ jp, jp ≠ ip → (K' = some jp ↔ K = some jp)) : Walk s₀ L' K' (s.setInode ip v) := by
  have hne : ∀ {jp}, jp ≠ ip → Live (s.setInode ip v) jp → Live s jp := fun hj hl => by
    unfold Live at hl ⊢
    rwa [setInode_ne hj] at hl
  refine ⟨h.dinode, h.data, h.held, fun a b ha hb' hab => ?_, fun jp => ?_, fun jp hl => ?_, fun jp hl => ?_, fun jp hl => ?_⟩
  · by_cases ha' : a = ip
    · by_cases hbi : b = ip
      · rw [ha', hbi]
      · have h2 := ha.2
        rw [ha', setInode_self] at hab h2
        rw [setInode_ne hbi] at hab
        exact absurd hab.symm (hu h2 b hbi (hne hbi hb'))
    · by_cases hbi : b = ip
      · have h2 := hb'.2
        rw [hbi, setInode_self] at hab h2
        rw [setInode_ne ha'] at hab
        exact absurd hab (hu h2 a ha' (hne ha' ha))
      · rw [setInode_ne ha', setInode_ne hbi] at hab
        exact h.uniq a b (hne ha' ha) (hne hbi hb') hab
  · by_cases hj : jp = ip
    · subst hj
      rw [Files.refs, if_pos hip, setInode_self]
      exact hr
    · rw [hL jp hj, ← h.refs jp]
      unfold Files.refs
      rw [setInode_ne hj]
  · by_cases hj : jp = ip
    · subst hj
      rw [setInode_self]
      exact hk hl
    · rw [setInode_ne hj]
      exact h.kept jp hl
  · by_cases hj : jp = ip
    · have h2 := hl.2
      subst hj
      rw [setInode_self] at h2 ⊢
      exact hg h2
    · have h2 := hl.2
      rw [setInode_ne hj] at h2 ⊢
      exact h.good jp ⟨hne hj hl.1, h2⟩
  · by_cases hj : jp = ip
    · subst hj
      rw [setInode_self]
      exact hb
    · rw [setInode_ne hj, hK jp hj]
      exact h.busy jp (hne hj hl)

lemma same (h : Walk s₀ L K s) (hl : Live s ip) {v : Inode} (hi : v.inum = (s.icache ip).inum)
    (hv : (s.icache ip).valid = true → v.valid = true) (hr : v.ref = Files.refs s₀ ip + L'.count ip)
    (hL : ∀ jp, jp ≠ ip → L'.count jp = L.count jp) (hg : v.valid = true → v.d = view s₀ v.inum)
    (hb : v.busy = true ↔ K' = some ip) (hK : ∀ jp, jp ≠ ip → (K' = some jp ↔ K = some jp)) :
    Walk s₀ L' K' (s.setInode ip v) := by
  refine h.set hl.1 (fun _ jp hj hlj hij => ?_) (fun h0 => ?_) hr hL hg hb hK
  · rw [hi] at hij
    exact hj (h.uniq jp ip hlj hl hij)
  · obtain ⟨h1, h2⟩ := h.kept ip h0
    exact ⟨hi.trans h1, fun h3 => hv (h2 h3)⟩

lemma ref_eq (h : Walk s₀ L K s) (hip : ip < NINODE) : (s.icache ip).ref = Files.refs s₀ ip + L.count ip := by
  rw [← h.refs ip, Files.refs, if_pos hip]

lemma view_disk (h : Walk s₀ L K s) (hl : Live s ip) (hv : (s.icache ip).valid = false) :
    view s₀ (s.icache ip).inum = (s.dinode (s.icache ip).inum).used := by
  rw [h.dinode]
  refine view_unloaded fun jp hj hi => ?_
  obtain ⟨h1, h2⟩ := h.kept jp hj.1
  have : jp = ip := h.uniq jp ip (h.live_start hj.1) hl (h1.trans hi)
  rw [← this, h2 hj.2] at hv
  cases hv

lemma perm (h : Walk s₀ L K s) (hL : ∀ jp, L'.count jp = L.count jp) : Walk s₀ L' K s :=
  ⟨h.dinode, h.data, h.held, h.uniq, fun jp => by rw [hL]; exact h.refs jp, h.kept, h.good, h.busy⟩

/-- What stops a walk: there is no place for an inode. -/
def Halted (s₀ : State) (e : Stop) : Prop := e = .panic "iget: no inodes" ∧ Crowded s₀

/-- `iget` takes a reference. -/
lemma iget {post : ℕ → State → Prop} (h : Walk s₀ L K s) (hlen : L.length ≤ 1) (hK : ∀ k, K = some k → k ∈ L)
    (hp : ∀ ip s', Walk s₀ (ip :: L) K s' → (s'.icache ip).inum = i →
      (∀ jp ∈ L, (s'.icache jp).inum = (s.icache jp).inum) → post ip s') :
    Sure (Halted s₀) (iget i) s post := by
  have hget : Sure (CacheFull s) (Files.iget i) s post := by
    apply sure_iget
    rintro ip s' ⟨hip, ⟨href, hinum, rfl⟩ | ⟨href, hno, rfl⟩⟩
    · refine hp ip _ (h.same ⟨hip, href⟩ rfl id ?_ (fun jp hj => ?_) (fun hv => h.good ip ⟨⟨hip, href⟩, hv⟩)
        (h.busy ip ⟨hip, href⟩) fun jp _ => Iff.rfl) ?_ fun jp _ => ?_
      · rw [List.count_cons_self]
        simp only [h.ref_eq hip]
        omega
      · exact List.count_cons_of_ne (Ne.symm hj)
      · rw [setInode_self]
        exact hinum
      · by_cases hj : jp = ip
        · rw [hj, setInode_self]
        · rw [setInode_ne hj]
    · have hz := h.ref_eq hip
      have hnot : ip ∉ L := by
        intro hm
        have hpos := List.count_pos_iff.2 hm
        omega
      refine hp ip _ (h.set hip (fun _ jp hj hl hi => hno jp hl hi) (fun hl => ?_) ?_ (fun jp hj => ?_)
        (fun hv => by cases hv) ?_ fun jp _ => Iff.rfl) ?_ fun jp hj => ?_
      · rw [live_iff] at hl
        omega
      · rw [List.count_cons_self]
        simp only
        omega
      · exact List.count_cons_of_ne (Ne.symm hj)
      · simp only [Bool.false_eq_true, false_iff]
        exact fun hk => hnot (hK ip hk)
      · rw [setInode_self]
      · rw [setInode_ne]
        rintro rfl
        exact hnot hj
  apply hget.mono (fun _ _ h => h)
  rintro e ⟨he, hfull⟩
  -- all references but one were there when the walk began
  refine ⟨he, L.headD 0, fun ip hip hne => ?_⟩
  have hpos := hfull ip hip
  rw [h.ref_eq hip, Files.refs, if_pos hip] at hpos
  have hzero : L.count ip = 0 := by
    rw [List.count_eq_zero]
    intro hm
    apply hne
    cases L with
    | nil => cases hm
    | cons x l =>
      cases l with
      | nil => simpa using hm
      | cons y l => simp at hlen
  omega

/-- `iunlock` -/
lemma iunlock {post : Unit → State → Prop} (h : Walk s₀ L (some ip) s) (hip : ip ∈ L)
    (hp : ∀ s', Walk s₀ L none s' → (∀ jp, (s'.icache jp).inum = (s.icache jp).inum) → post () s') :
    Sure stop (iunlock ip) s post := by
  have hl := h.live hip
  have href := hl.2
  refine sure_act (t := s.setInode ip { s.icache ip with busy := false }) ?_ (hp _ ?_ fun jp => ?_)
  · rw [if_neg]
    rw [(h.busy ip hl).2 rfl]
    simp only [Bool.true_eq_false, false_or]
    omega
  · refine h.same hl rfl id (h.ref_eq hl.1) (fun jp _ => rfl) (fun hv => h.good ip ⟨hl, hv⟩) (by simp) fun jp hj => ?_
    simpa using hj.symm
  · by_cases hj : jp = ip
    · rw [hj, setInode_self]
    · rw [setInode_ne hj]

/-- An inode that the walk lets go keeps a link or another holder. -/
lemma iput {post : Unit → State → Prop} (h : Walk s₀ (ip :: L) none s) (ha : Allocated s₀ (s.icache ip).inum)
    (hp : ∀ s', Walk s₀ L none s' → (∀ jp, (s'.icache jp).inum = (s.icache jp).inum) → post () s') :
    Sure stop (iput ip) s post := by
  have hl : Live s ip := h.live List.mem_cons_self
  have href := h.ref_eq hl.1
  rw [List.count_cons_self] at href
  have hlast : ¬ lastLink (s.icache ip) := by
    rintro ⟨h1, h2, h3⟩
    rw [h.good ip ⟨hl, h2⟩] at h3
    obtain ⟨jp, hj, hji⟩ := ha.2 h3
    have : jp = ip := h.uniq jp ip (h.live_start hj) hl ((h.kept jp hj).1.trans hji)
    rw [this, live_iff] at hj
    omega
  refine sure_bind (sure_act (a := false) (t := s.setInode ip { s.icache ip with ref := (s.icache ip).ref - 1 }) ?_ ?_)
  · rw [if_neg hlast]
  · rw [if_neg (by simp)]
    refine wp_pure (hp _ ?_ fun jp => ?_)
    · refine h.same hl rfl id ?_ (fun jp hj => ?_) (fun hv => h.good ip ⟨hl, hv⟩) (h.busy ip hl) fun jp _ => Iff.rfl
      · simp only
        omega
      · exact (List.count_cons_of_ne (Ne.symm hj)).symm
    · by_cases hj : jp = ip
      · rw [hj, setInode_self]
      · rw [setInode_ne hj]

lemma iunlockput {post : Unit → State → Prop} (h : Walk s₀ (ip :: L) (some ip) s) (ha : Allocated s₀ (s.icache ip).inum)
    (hp : ∀ s', Walk s₀ L none s' → (∀ jp, (s'.icache jp).inum = (s.icache jp).inum) → post () s') :
    Sure stop (iunlockput ip) s post := by
  refine sure_bind (h.iunlock List.mem_cons_self fun s₁ h₁ hi₁ => ?_)
  refine h₁.iput (by rw [hi₁]; exact ha) fun s₂ h₂ hi₂ => hp s₂ h₂ fun jp => ?_
  rw [hi₂, hi₁]

/-- `ilock` of an allocated inode makes its copy valid. -/
lemma ilock {post : Unit → State → Prop} (h : Walk s₀ L none s) (hip : ip ∈ L) (ha : Allocated s₀ (s.icache ip).inum)
    (hp : ∀ s', Walk s₀ L (some ip) s' → Loaded s' ip → (∀ jp, (s'.icache jp).inum = (s.icache jp).inum) → post () s') :
    Sure stop (ilock ip) s post := by
  have hl := h.live hip
  have href := hl.2
  have hbusy : (s.icache ip).busy = false := by
    have := h.busy ip hl
    simpa using this
  generalize hs₁ : s.setInode ip { s.icache ip with busy := true } = s₁
  have h₁ : Walk s₀ L (some ip) s₁ := hs₁ ▸ h.same hl rfl id (h.ref_eq hl.1) (fun jp _ => rfl)
    (fun hv => h.good ip ⟨hl, hv⟩) (by simp) fun jp hj => by simpa using hj.symm
  have hi₁ : ∀ jp, (s₁.icache jp).inum = (s.icache jp).inum := fun jp => by
    rw [← hs₁]
    by_cases hj : jp = ip
    · rw [hj, setInode_self]
    · rw [setInode_ne hj]
  refine sure_bind (sure_act (a := ()) (t := s₁) ?_ ?_)
  · rw [if_neg (by omega), if_neg (by simp [hbusy]), hs₁]
  have hl₁ := h₁.live hip
  refine sure_bind (sure_look ?_)
  cases hv : (s₁.icache ip).valid with
  | true => exact wp_pure (hp s₁ h₁ ⟨hl₁, hv⟩ hi₁)
  | false =>
    have hview := h₁.view_disk hl₁ hv
    rw [hi₁] at hview
    have htype : (s₁.dinode (s.icache ip).inum).type ≠ 0 := by
      intro h0
      refine ha.1 ?_
      rw [hview, Dinode.used, if_pos h0]
      rfl
    rw [Dinode.used_of_type htype] at hview
    generalize hs₂ : s₁.setInode ip { s₁.icache ip with d := s₁.dinode (s₁.icache ip).inum, valid := true } = s₂
    have h₂ : Walk s₀ L (some ip) s₂ := hs₂ ▸ h₁.same hl₁ rfl (fun _ => rfl) (h₁.ref_eq hl₁.1) (fun jp _ => rfl)
      (fun _ => by simp only [hi₁, hview]) (h₁.busy ip hl₁) fun jp _ => Iff.rfl
    have hi₂ : ∀ jp, (s₂.icache jp).inum = (s₁.icache jp).inum := fun jp => by
      rw [← hs₂]
      by_cases hj : jp = ip
      · rw [hj, setInode_self]
      · rw [setInode_ne hj]
    refine sure_bind (sure_look (sure_bind (sure_bread h₁.held (sure_bind (sure_change (sure_bind (sure_brelse rfl ?_)))))))
    refine sure_bind (sure_change_eq (t := s₂) ?_ (sure_bind (sure_inode ?_)))
    · rw [← hs₂, ← h₁.held]
      simp only [State.setInode, if_true]
      congr 1
      funext jp
      split_ifs <;> rfl
    · have hd : (s₂.icache ip).d = s₁.dinode (s.icache ip).inum := by
        rw [← hs₂, setInode_self, hi₁]
      rw [hd, if_neg htype]
      refine wp_pure (hp s₂ h₂ ⟨h₂.live hip, ?_⟩ fun jp => (hi₂ jp).trans (hi₁ jp))
      rw [← hs₂, setInode_self]

/-- `dirlookup` of a directory that is locked. -/
lemma dirlookup {post : Option (ℕ × ℕ) → State → Prop} (h : Walk s₀ [ip] (some ip) s) (hload : Loaded s ip)
    (hi : (s.icache ip).inum = i) (hl : Legible s₀ (view s₀ i)) (hnone : child s₀ i name = none → post none s)
    (hsome : ∀ j next off s', child s₀ i name = some j → Walk s₀ [next, ip] (some ip) s' → (s'.icache next).inum = j →
      (s'.icache ip).inum = i → post (some (next, off)) s') : Sure (Halted s₀) (dirlookup ip name) s post := by
  have hd : (s.icache ip).d = view s₀ i := by rw [h.good ip hload, hi]
  have hchild : child s₀ i name = (findEntry s (view s₀ i) name).map fun j => (entry s (view s₀ i) j).inum := by
    unfold child findEntry
    simp only [if_pos hl.type, entry_congr h.data]
  refine sure_dirlookup h.held hd (hl.congr h.data) (fun hf => hnone (by rw [hchild, hf, Option.map_none])) fun j hf => ?_
  refine h.iget (by simp) (fun k hk => by simpa using hk.symm) fun next s' h' hn hkeep => ?_
  exact hsome _ next _ s' (by rw [hchild, hf, Option.map_some]) h' hn ((hkeep ip List.mem_cons_self).trans hi)

end Walk

/-! ### namei and nameiparent -/

/-- What the loop of `namex` makes of the elements that are left; `name` is the last one it took. -/
def outcome (s : State) (parent : Bool) : ℕ → List Name → Name → Option (ℕ × Name)
  | i, [], name => if parent then none else some (i, name)
  | i, name :: names, _ =>
    if (view s i).type = T_DIR then
      if parent ∧ names = [] then some (i, name) else (child s i name).bind fun j => outcome s parent j names name
    else none

lemma outcome_child {names : List Name} {last : Name} : (outcome s false i names last).map Prod.fst = resolve s i names := by
  induction names generalizing i last with
  | nil => rfl
  | cons name names ih =>
    rw [resolve_cons]
    unfold outcome
    split_ifs with h1 h2
    · simp at h2
    · cases hc : child s i name with
      | none => rfl
      | some j =>
        rw [Option.bind_some, Option.bind_some]
        exact ih
    · rw [child_eq_none.2 (Or.inl h1)]
      rfl

lemma outcome_parent {names : List Name} {last : Name} : outcome s true i names last = resolveParent s i names := by
  induction names generalizing i last with
  | nil => rfl
  | cons name names ih =>
    unfold outcome
    cases names with
    | nil =>
      simp only [and_self, if_true]
      rfl
    | cons next names =>
      have hne : ¬ (true = true ∧ next :: names = []) := by simp
      rw [if_neg hne]
      have hrec : resolveParent s i (name :: next :: names) =
          (child s i name).bind fun j => resolveParent s j (next :: names) := by
        unfold resolveParent
        rw [List.dropLast_cons_cons, List.getLast?_cons_cons, resolve_cons]
        cases child s i name with
        | none => cases (next :: names).getLast? <;> rfl
        | some j => rfl
      rw [hrec]
      split_ifs with h1
      · cases child s i name with
        | none => rfl
        | some j => exact @ih j name
      · rw [child_eq_none.2 (Or.inl h1)]
        rfl

/-- What a walk returns: a reference to the inode, and the last element it took. -/
def Arrives (s₀ : State) (result : Option (ℕ × Name)) (r : Option (ℕ × Name)) (s : State) : Prop :=
  r.map (fun x => ((s.icache x.1).inum, x.2)) = result ∧ Walk s₀ (r.map Prod.fst).toList none s

lemma sure_namexFrom {parent : Bool} (ht : Tree s₀) (fuel : ℕ) (hfuel : path.length < fuel) (h : Walk s₀ [ip] none s)
    (hi : (s.icache ip).inum = i) (ha : Allocated s₀ i) :
    Sure (Walk.Halted s₀) (namexFrom parent fuel ip path name) s (Arrives s₀ (outcome s₀ parent i (elements path) name)) := by
  induction fuel generalizing ip path name s i with
  | zero => omega
  | succ fuel ih =>
    unfold namexFrom
    rw [elements_eq]
    cases hs : skipelem path with
    | none =>
      cases parent with
      | false => exact wp_pure ⟨by rw [Option.map_some, hi]; rfl, h⟩
      | true => exact sure_bind (h.iput (hi ▸ ha) fun s₁ h₁ _ => wp_pure ⟨rfl, h₁⟩)
    | some e =>
      obtain ⟨elem, rest⟩ := e
      obtain ⟨hlen, hrest⟩ := skipelem_rest hs
      refine sure_bind (h.ilock List.mem_cons_self (hi ▸ ha) fun s₁ h₁ hload hi₁ => sure_bind (sure_inode ?_))
      have hi₁ : (s₁.icache ip).inum = i := (hi₁ ip).trans hi
      have hd : (s₁.icache ip).d = view s₀ i := by rw [h₁.good ip hload, hi₁]
      rw [hd]
      by_cases htype : (view s₀ i).type = T_DIR
      · rw [if_neg (not_not.2 htype)]
        simp only [outcome, if_pos htype, hrest]
        split_ifs with hstop
        · refine sure_bind (h₁.iunlock List.mem_cons_self fun s₂ h₂ hi₂ => wp_pure ⟨?_, h₂⟩)
          rw [Option.map_some, hi₂, hi₁]
        · refine sure_bind (h₁.dirlookup hload hi₁ (ht.legible i htype) (fun hc => ?_) fun j next off s₂ hc h₂ hn₂ hi₂ => ?_)
          · refine sure_bind (h₁.iunlockput (hi₁ ▸ ha) fun s₂ h₂ _ => wp_pure ⟨?_, h₂⟩)
            rw [hc]
            rfl
          · have hj : Allocated s₀ j := by
              unfold child at hc
              rw [if_pos htype, Option.map_eq_some_iff] at hc
              obtain ⟨k, hk, rfl⟩ := hc
              obtain ⟨h1, h2, -⟩ := findEntry_eq_some.1 hk
              exact ht.entries i htype k h1 h2.1
            have h₂ : Walk s₀ [ip, next] (some ip) s₂ := h₂.perm fun jp => by simp only [List.count_cons]; omega
            refine sure_bind (h₂.iunlockput (hi₂ ▸ ha) fun s₃ h₃ hi₃ => ?_)
            rw [hc, Option.bind_some]
            exact ih (by omega) h₃ ((hi₃ next).trans hn₂) hj
      · rw [if_pos htype]
        simp only [outcome, if_neg htype]
        exact sure_bind (h₁.iunlockput (hi₁ ▸ ha) fun s₂ h₂ _ => wp_pure ⟨rfl, h₂⟩)

/-- The working directory of a process is in use and allocated. -/
def HasCwd (s : State) (p : ℕ) : Prop := Live s (s.proc p).cwd ∧ Allocated s (s.icache (s.proc p).cwd).inum

lemma sure_namex {parent : Bool} {p : ℕ} (hq : Quiet s) (ht : Tree s) (hc : HasCwd s p) :
    Sure (Walk.Halted s) (namex p path parent) s (Arrives s (outcome s parent (start s p path) (elements path) [])) := by
  unfold namex start
  split_ifs with hroot
  · exact sure_bind (hq.walk.iget (by simp) (fun k hk => by cases hk) fun ip s₁ h₁ hi₁ _ =>
      sure_namexFrom ht _ (by omega) h₁ hi₁ ht.root)
  · refine sure_bind (sure_look (sure_bind (sure_bind (sure_change (wp_pure ?_)))))
    refine sure_namexFrom ht _ (by omega) ?_ (by rw [setInode_self]) hc.2
    refine hq.walk.same hc.1 rfl id ?_ (fun jp hj => List.count_cons_of_ne (Ne.symm hj)) (fun hv => ?_)
      (by simp [hq.busy _ hc.1])
      fun jp _ => Iff.rfl
    · simp only [hq.walk.ref_eq hc.1.1]
      simp
    · exact hq.walk.good _ ⟨hc.1, hv⟩

/-- `namei` returns the inode to which the elements of the path lead one after the other, and 0 just if
one of them is missing or has to be looked up in what is no directory; `nameiparent` stops before the
last one. Either stops only where the inode cache has no place for an inode. -/
theorem namei_resolves {p : ℕ} (hq : Quiet s) (ht : Tree s) (hc : HasCwd s p) :
    ((∃ r s', (namei p path).run s = .ok (r, s') ∧
        r.map (fun ip => (s'.icache ip).inum) = resolve s (start s p path) (elements path) ∧
        (r = none ↔ Missing s (start s p path) (elements path))) ∨
      (namei p path).run s = .error (.panic "iget: no inodes") ∧ Crowded s) ∧
    ((∃ r s', (nameiparent p path).run s = .ok (r, s') ∧
        r.map (fun x => ((s'.icache x.1).inum, x.2)) = resolveParent s (start s p path) (elements path) ∧
        (r = none ↔ elements path = [] ∨
          ¬ ∃ j, resolve s (start s p path) (elements path).dropLast = some j ∧ (view s j).type = T_DIR)) ∨
      (nameiparent p path).run s = .error (.panic "iget: no inodes") ∧ Crowded s) := by
  constructor
  · have h : Sure (Walk.Halted s) (namei p path) s fun r s' =>
        r.map (fun ip => (s'.icache ip).inum) = resolve s (start s p path) (elements path) := by
      have hwalk : Sure (Walk.Halted s) (namex p path false) s _ := sure_namex hq ht hc
      refine sure_bind (hwalk.imp fun r s' hr => ?_)
      have hmap := congrArg (Option.map Prod.fst) hr.1
      rw [outcome_child, Option.map_map] at hmap
      cases r with
      | none => exact wp_pure hmap
      | some x => exact wp_pure hmap
    rcases h.run with ⟨r, s', hrun, hr⟩ | ⟨e, hrun, rfl, hcrowd⟩
    · refine Or.inl ⟨r, s', hrun, hr, ?_⟩
      rw [missing_iff, ← hr, Option.map_eq_none_iff]
    · exact Or.inr ⟨hrun, hcrowd⟩
  · have hwalk : Sure (Walk.Halted s) (namex p path true) s _ := sure_namex hq ht hc
    rcases hwalk.run with ⟨r, s', hrun, hr⟩ | ⟨e, hrun, rfl, hcrowd⟩
    · have hpar := hr.1
      rw [outcome_parent] at hpar
      refine Or.inl ⟨r, s', hrun, hpar, ?_⟩
      rw [← resolveParent_eq_none, ← hpar, Option.map_eq_none_iff]
    · exact Or.inr ⟨hrun, hcrowd⟩

/-- The root has one entry, for the directory 2 named `a`, which has one for the file 3 named `b`; process 0 works in
the root. -/
def nested : State where
  sb := ⟨0, 0, 0, 0⟩
  dinode := fun i => if i = 1 then { Dinode.zero with type := T_DIR, nlink := 1, size := 16, addrs := fun _ => 30 }
    else if i = 2 then { Dinode.zero with type := T_DIR, nlink := 1, size := 16, addrs := fun _ => 31 }
    else if i = 3 then { Dinode.zero with type := T_FILE, nlink := 1 } else Dinode.zero
  bit := fun _ => true
  data := fun b j => (if b = 30 then [2, 0, 97] else [3, 0, 98]).getD j 0
  held := []
  icache := fun ip => ⟨1, if ip = 0 then 1 else 0, false, false, Dinode.zero⟩
  busy := false
  logged := []
  file := fun _ => ⟨.none, 0, false, false, 0, 0⟩
  proc := fun _ => ⟨0, fun _ => none⟩
  console := fun _ => []

lemma nested_view (i : ℕ) : view nested i = (nested.dinode i).used :=
  view_unloaded fun _ hl => Bool.noConfusion hl.2

lemma nested_type (h : (view nested i).type = T_DIR) : i = 1 ∨ i = 2 := by
  rw [nested_view] at h
  unfold Dinode.used nested at h
  dsimp only at h
  split_ifs at h <;> first | omega | cases h

lemma nested_live : Live nested ip ↔ ip = 0 := by
  unfold Live nested NINODE
  dsimp only
  split_ifs with h
  · simp [h]
  · simp [h]

lemma nested_used (h : (nested.dinode i).type ≠ 0) : view nested i = nested.dinode i := by
  rw [nested_view, Dinode.used_of_type h]

lemma nested_tree : Tree nested := by
  have h1 : Allocated nested 1 := by
    unfold Allocated
    rw [nested_used (by decide)]
    exact ⟨by decide, fun h => absurd h (by decide)⟩
  have h2 : Allocated nested 2 := by
    unfold Allocated
    rw [nested_used (by decide)]
    exact ⟨by decide, fun h => absurd h (by decide)⟩
  have h3 : Allocated nested 3 := by
    unfold Allocated
    rw [nested_used (by decide)]
    exact ⟨by decide, fun h => absurd h (by decide)⟩
  have hsize : ∀ i, i = 1 ∨ i = 2 → view nested i = nested.dinode i ∧ (nested.dinode i).size = 16 := by
    rintro i (rfl | rfl)
    · exact ⟨nested_used (by decide), rfl⟩
    · exact ⟨nested_used (by decide), rfl⟩
  refine ⟨h1, fun i hi => ?_, fun i hi j hj _ => ?_⟩
  · obtain ⟨hv, hs⟩ := hsize i (nested_type hi)
    rw [hv]
    have hk0 : ∀ k, k * BSIZE < (nested.dinode i).size → k = 0 := by
      intro k hk
      unfold BSIZE at hk
      omega
    rcases nested_type hi with rfl | rfl
    · refine ⟨by decide, fun k hk => ?_, by decide⟩
      obtain rfl := hk0 k hk
      exact ⟨by decide, by decide, by decide⟩
    · refine ⟨by decide, fun k hk => ?_, by decide⟩
      obtain rfl := hk0 k hk
      exact ⟨by decide, by decide, by decide⟩
  · obtain ⟨hv, hs⟩ := hsize i (nested_type hi)
    rw [hv] at hj ⊢
    obtain rfl : j = 0 := by
      unfold DIRENT at hj
      omega
    rcases nested_type hi with rfl | rfl
    · have he : (entry nested (nested.dinode 1) 0).inum = 2 := by decide
      rw [he]
      exact h2
    · have he : (entry nested (nested.dinode 2) 0).inum = 3 := by decide
      rw [he]
      exact h3

lemma nested_quiet : Quiet nested := by
  refine ⟨rfl, fun ip jp h1 h2 _ => ?_, fun ip _ => rfl⟩
  rw [nested_live.1 h1, nested_live.1 h2]

theorem namei_resolves_nested :
    ∃ ip s', (namei 0 [47, 97, 47, 47, 98]).run nested = .ok (some ip, s') ∧ (s'.icache ip).inum = 3 := by
  have hcwd : HasCwd nested 0 := ⟨nested_live.2 rfl, nested_tree.root⟩
  have hres : resolve nested (start nested 0 [47, 97, 47, 47, 98]) (elements [47, 97, 47, 47, 98]) = some 3 := by
    have he : elements [47, 97, 47, 47, 98] = [[97], [98]] := by decide
    have ha : child nested 1 [97] = some 2 := by
      unfold child
      rw [nested_used (by decide)]
      decide
    have hb : child nested 2 [98] = some 3 := by
      unfold child
      rw [nested_used (by decide)]
      decide
    rw [he, resolve_cons]
    show (child nested 1 [97]).bind (fun j => resolve nested j [[98]]) = some 3
    rw [ha, Option.bind_some, resolve_cons, hb]
    rfl
  rcases (@namei_resolves nested [47, 97, 47, 47, 98] 0 nested_quiet nested_tree hcwd).1 with ⟨r, s', hrun, hr, -⟩ | ⟨-, jp, hfull⟩
  · rw [hres, Option.map_eq_some_iff] at hr
    obtain ⟨ip, rfl, hip⟩ := hr
    exact ⟨ip, s', hrun, hip⟩
  · -- places 1 and 2 are free
    by_cases hj : jp = 1
    · exact absurd (hfull 2 (by decide) (by omega)) (by decide)
    · exact absurd (hfull 1 (by decide) (Ne.symm hj)) (by decide)

end Files

end Os132

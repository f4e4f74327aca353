import Os132.Shell.Export

/-!
# Running a command through PATH

The `EXEC` branch of `runcmd`. It calls `exec` on the name of the command and, as long as `exec`
comes back, on the directories of PATH followed by the name, put together in an array on the stack.
Which names `exec` succeeds on is a parameter. The calls of a run are kept in order, with the size
of the array and the characters that `strcat` stores from its start on.
-/

namespace Os132.Shell

/-- What the branch calls: `exec`, `strcat` into an array of `size` characters, and the complaint. -/
inductive Call where
  | exec (name : List Char)
  | strcat (size : ℕ) (stores : List Char)
  | failed (name : List Char)
  deriving DecidableEq

def strlen (s : List Char) : ℕ := (cstring s).length

/-- The characters that `strcat(dest, p, q)` stores from `dest` on. -/
def strcat (p q : List Char) : List Char := cstring p ++ (cstring q ++ [NUL])

section Exec

variable (exec : List Char → Bool)

/-- The loop over PATH from a slot on: `z` is computed from `*temp2`, which stays the first slot. -/
def pathLoop (temp2 b : List Char) : List (List Char) → List Call
  | [] => [.failed (cstring b)]
  | a :: path =>
    if a.headD NUL = NUL then [.failed (cstring b)]
    else
      let x := strlen b
      let z := strlen temp2
      let dest := strcat a b
      .strcat (x + z) dest :: .exec (cstring dest) :: if exec (cstring dest) then [] else pathLoop temp2 b path

/-- `case EXEC` of `runcmd`, for `path` the ten slots of PATH. -/
def runcmdExec (pathInit : Bool) (path : List (List Char)) (argv : List (List Char)) : List Call :=
  match argv with
  | [] => []
  | b :: _ =>
    .exec (cstring b) ::
      if exec (cstring b) then []
      else if pathInit then pathLoop exec (path.headD []) b path
      else [.failed (cstring b)]

/-- Names are tried in order up to the first that succeeds. -/
def tried : List (List Char) → List (List Char)
  | [] => []
  | name :: names => name :: if exec name then [] else tried names

end Exec

/-- The names given to `exec`, in order. -/
def execs (calls : List Call) : List (List Char) :=
  calls.filterMap fun c => c.casesOn some (fun _ _ => none) (fun _ => none)

/-- The strings of the non-empty slots, in order, each followed by the name. -/
def candidates (path : List (List Char)) (b : List Char) : List (List Char) :=
  ((path.map cstring).filter (· ≠ [])).map (· ++ cstring b)

/-- The branch tries the name itself and then the candidates, and every store of `strcat` is in `dest`. -/
def SearchesPath (exec : List Char → Bool) (pathInit : Bool) (path argv : List (List Char)) (b : List Char) : Prop :=
  execs (runcmdExec exec pathInit path (b :: argv)) =
      tried exec (cstring b :: if pathInit then candidates path b else []) ∧
    ∀ size stores, .strcat size stores ∈ runcmdExec exec pathInit path (b :: argv) → stores.length ≤ size

variable {exec : List Char → Bool} {pathInit : Bool} {path argv : List (List Char)} {a b p q temp2 : List Char}

lemma length_strcat : (strcat p q).length = strlen p + strlen q + 1 := by
  simp only [strcat, strlen, List.length_append, List.length_singleton]
  omega

lemma cstring_eq_nil : cstring a = [] ↔ a.headD NUL = NUL := by
  cases a with
  | nil => simp [cstring]
  | cons c a => by_cases hc : c = NUL <;> simp [cstring, hc]

lemma strcat_overruns : ¬ (strcat a b).length ≤ strlen b + strlen a := by
  rw [length_strcat]
  omega

lemma pathLoop_empty (h : ∀ a ∈ path, cstring a = []) : pathLoop exec temp2 b path = [.failed (cstring b)] := by
  cases path with
  | nil => rfl
  | cons a path => rw [pathLoop, if_pos (cstring_eq_nil.mp (h a List.mem_cons_self))]

lemma candidates_empty (h : ∀ a ∈ path, cstring a = []) : candidates path b = [] := by
  have hfilter : (path.map cstring).filter (· ≠ []) = [] := by
    rw [List.filter_eq_nil_iff]
    intro s hs
    obtain ⟨a, ha, rfl⟩ := List.mem_map.mp hs
    simp [h a ha]
  rw [candidates, hfilter, List.map_nil]

lemma pathLoop_overruns (exec : List Char → Bool) (b : List Char) (path : List (List Char)) (h : cstring a ≠ []) :
    ∃ size stores, .strcat size stores ∈ pathLoop exec a b (a :: path) ∧ ¬ stores.length ≤ size := by
  refine ⟨strlen b + strlen a, strcat a b, ?_, strcat_overruns⟩
  rw [pathLoop, if_neg fun hn => h (cstring_eq_nil.mpr hn)]
  exact List.mem_cons_self

lemma pathLoop_stops (h : cstring a = []) : pathLoop exec temp2 b (a :: path) = [.failed (cstring b)] := by
  rw [pathLoop, if_pos (cstring_eq_nil.mp h)]

/-- A search through PATH is what it should be exactly if it does not begin, or PATH holds nothing. -/
theorem searchesPath_iff (exec : List Char → Bool) (pathInit : Bool) (path argv : List (List Char))
    (b : List Char) : SearchesPath exec pathInit path argv b ↔
      exec (cstring b) = true ∨ pathInit = false ∨ ∀ a ∈ path, cstring a = [] := by
  by_cases hb : exec (cstring b) = true
  · simp [SearchesPath, runcmdExec, hb, execs, tried]
  cases pathInit with
  | false => simp [SearchesPath, runcmdExec, hb, execs, tried]
  | true =>
    have hrun : runcmdExec exec true path (b :: argv) =
        .exec (cstring b) :: pathLoop exec (path.headD []) b path := by simp [runcmdExec, hb]
    constructor
    · intro h
      right
      right
      rw [SearchesPath, hrun] at h
      cases path with
      | nil => simp
      | cons a path =>
        by_cases ha : cstring a = []
        · have hall : tried exec (candidates (a :: path) b) = [] := by
            have hexecs := h.1
            rw [pathLoop_stops ha] at hexecs
            simpa [execs, tried, hb] using hexecs.symm
          have hcand : candidates (a :: path) b = [] := by
            cases hc : candidates (a :: path) b with
            | nil => rfl
            | cons n ns => simp [hc, tried] at hall
          intro a' ha'
          by_contra hne
          have hmem : cstring a' ++ cstring b ∈ candidates (a :: path) b := by
            apply List.mem_map_of_mem
            exact List.mem_filter.mpr ⟨List.mem_map_of_mem ha', by simpa using hne⟩
          rw [hcand] at hmem
          exact absurd hmem (by simp)
        · obtain ⟨size, stores, hmem, hover⟩ := pathLoop_overruns exec b path ha
          exact absurd (h.2 size stores (List.mem_cons_of_mem _ hmem)) hover
    · rintro (h | h | h)
      · exact absurd h hb
      · exact absurd h (by simp)
      · rw [SearchesPath, hrun, pathLoop_empty h, candidates_empty h]
        simp [execs, tried, hb]

/-- With `/` in the first slot of PATH, `ls` is looked for in an array of 3 characters that gets 4. -/
theorem strcat_behind_dest : ¬ ∀ (exec : List Char → Bool) (pathInit : Bool) (path argv : List (List Char))
    (b : List Char), path.length = 10 → SearchesPath exec pathInit path argv b := by
  intro h
  have hls := (h (fun _ => false) true (tenSlots [['/']]) [] ['l', 's'] rfl).2 3 ['/', 'l', 's', NUL] (by decide)
  exact absurd hls (by decide)

end Os132.Shell

import Os132.User.Allocator
import Mathlib.Data.Int.Notation

/-!
# Requests of every size

A request passes through an addition, a division and a multiplication of 32-bit words and comes to
`sbrk` as a signed integer. The unit count wraps for the last requests below 2³² and is then 1; the
byte count of a block of 2²⁸ headers or more is no positive integer, and `sbrk` shrinks the process
or does nothing. Both are told apart from the requests that are served as they should be.
-/

namespace Os132.User

open Cover

/-- The integer that `sbrk` gets for `nu` headers. -/
def sbrkArg (nu : ℕ) : ℤ :=
  if nu * HEADER % WORD < 2147483648 then (nu * HEADER % WORD : ℕ) else (nu * HEADER % WORD : ℕ) - WORD

/-- The sizes in headers for which `morecore` calls `sbrk` in the loop of `malloc`. -/
def askedLoop (nunits : ℕ) (sbrk : ℕ → ℕ → Option ℕ) : ℕ → ℕ → Heap → ℕ → ℕ → List ℕ
  | 0, _, _, _, _ => []
  | fuel + 1, k, h, _, p =>
    if h.size p ≥ nunits then []
    else if p = h.freep then
      request nunits :: (morecore fuel h (sbrk k) nunits).elim [] fun r =>
        if r.2 = 0 then [] else askedLoop nunits sbrk fuel (k + 1) r.1 r.2 (r.1.ptr r.2)
    else askedLoop nunits sbrk fuel k h p (h.ptr p)

def asked (base fuel : ℕ) (h : Heap) (sbrk : ℕ → ℕ → Option ℕ) (nbytes : ℕ) : List ℕ :=
  let h := makeBase base h
  askedLoop (units nbytes) sbrk fuel 0 h h.freep (h.ptr h.freep)

/-- `malloc` returns 0 or a block with room for the request, and asks `sbrk` for the bytes that
`morecore` records. -/
def Honest (base : ℕ) (m : Machine) (nbytes : ℕ) (sbrk : ℕ → ℕ → Option ℕ) : Prop :=
  ∃ N h' res, (∀ fuel, N ≤ fuel → malloc base fuel m.heap sbrk nbytes = some (h', res) ∧
      ∀ nu ∈ asked base fuel m.heap sbrk nbytes, sbrkArg nu = nu * HEADER) ∧
    (res = 0 ∨ nbytes + HEADER ≤ h'.size (res - HEADER) * HEADER)

/-- Following the pointers from `freep` leads to a block of at least `n` headers. -/
def HasRoom (h : Heap) (n : ℕ) : Prop := ∃ j, n ≤ h.size (h.ptr^[j] h.freep)

variable {base p q n k fuel nbytes nu : ℕ} {m : Machine} {h h' : Heap} {sbrk : ℕ → ℕ → Option ℕ}
  {c v live : List ℕ}

lemma sbrkArg_eq_iff : sbrkArg nu = nu * HEADER ↔ nu * HEADER < 2147483648 := by
  simp only [sbrkArg, HEADER, WORD]
  omega

lemma units_bytes_iff (hn : nbytes < WORD) :
    nbytes + HEADER ≤ units nbytes * HEADER ↔ nbytes + HEADER - 1 < WORD := by
  constructor
  · intro h
    by_contra hw
    have hmod : (nbytes + HEADER - 1) % WORD = nbytes + HEADER - 1 - WORD := by
      simp only [HEADER, WORD] at hw hn ⊢
      omega
    rw [units, hmod] at h
    simp only [HEADER, WORD] at h hn hw
    omega
  · exact units_bytes

/-- Only the one size of a call of `malloc` is asked for. -/
lemma eq_of_mem_asked (h : nu ∈ askedLoop n sbrk fuel k h' p q) : nu = request n := by
  induction fuel generalizing k h' p q with
  | zero => simp [askedLoop] at h
  | succ fuel ih =>
    rw [askedLoop] at h
    split_ifs at h
    · simp at h
    · rcases List.mem_cons.1 h with h | h
      · exact h
      · cases hm : morecore fuel h' (sbrk k) n with
        | none => simp [hm] at h
        | some r =>
          rw [hm, Option.elim_some] at h
          split_ifs at h
          · simp at h
          · exact ih h
    · exact ih h

/-- A search that comes to a block it can take asks for nothing. -/
lemma asked_found (hl : (p :: (v ++ [h.freep])).IsChain fun a b => h.ptr a = b)
    (hroom : ∃ x ∈ v ++ [h.freep], n ≤ h.size x) (hv : h.freep ∉ v) :
    askedLoop n sbrk fuel k h p (h.ptr p) = [] := by
  induction v generalizing p fuel with
  | nil =>
    cases fuel with
    | zero => rfl
    | succ fuel =>
      have hptr : h.ptr p = h.freep := by simpa using hl
      rw [askedLoop, hptr, if_pos (by simpa using hroom)]
  | cons w v ih =>
    cases fuel with
    | zero => rfl
    | succ fuel =>
      have hptr : h.ptr p = w := (List.isChain_cons_cons.1 hl).1
      rw [askedLoop, hptr]
      by_cases hs : h.size w ≥ n
      · rw [if_pos hs]
      · have hne : w ≠ h.freep := fun he => hv (by simp [he])
        have hrest : ∃ x ∈ v ++ [h.freep], n ≤ h.size x := by
          obtain ⟨x, hx, hle⟩ := hroom
          rcases List.mem_cons.1 hx with rfl | hx
          · exact absurd hle hs
          · exact ⟨x, hx, hle⟩
        rw [if_neg hs, if_neg hne]
        exact ih (List.isChain_cons_cons.1 hl).2 hrest (fun hm => hv (by simp [hm]))

/-- A search that comes to no block asks. -/
lemma asked_full (hl : (p :: (v ++ [h.freep])).IsChain fun a b => h.ptr a = b)
    (hfull : ∀ x ∈ v ++ [h.freep], h.size x < n) (hv : h.freep ∉ v) :
    request n ∈ askedLoop n sbrk (fuel + v.length + 1) k h p (h.ptr p) := by
  induction v generalizing p with
  | nil =>
    have hptr : h.ptr p = h.freep := by simpa using hl
    have hs := hfull h.freep (by simp)
    rw [askedLoop, hptr, if_neg (by omega), if_pos rfl]
    exact List.mem_cons_self
  | cons w v ih =>
    have hptr : h.ptr p = w := (List.isChain_cons_cons.1 hl).1
    have hs := hfull w (by simp)
    have hne : w ≠ h.freep := fun he => hv (by simp [he])
    rw [List.length_cons, ← Nat.add_assoc, askedLoop, hptr, if_neg (by omega), if_neg hne]
    exact ih (List.isChain_cons_cons.1 hl).2 (fun x hx => hfull x (by simp at hx ⊢; tauto))
      (fun hm => hv (by simp [hm]))

lemma reached_of_chain {f : ℕ → ℕ} (hl : (p :: v).IsChain fun a b => f a = b) (hq : q ∈ p :: v) :
    ∃ j, f^[j] p = q := by
  induction v generalizing p with
  | nil => exact ⟨0, (List.mem_singleton.1 hq).symm⟩
  | cons w v ih =>
    rcases List.mem_cons.1 hq with rfl | hq
    · exact ⟨0, rfl⟩
    · obtain ⟨hw, hl⟩ := List.isChain_cons_cons.1 hl
      obtain ⟨j, hj⟩ := ih hl hq
      exact ⟨j + 1, by rw [Function.iterate_succ_apply, hw, hj]⟩

namespace Rep

lemma ptr_mem (r : Rep base [] h c live) (hp : p ∈ c) : h.ptr p ∈ c := by
  obtain ⟨a, b, rfl⟩ := List.append_of_mem hp
  have hbase := r.base_mem
  rw [r.ptr_eq]
  cases b with
  | nil => exact hbase
  | cons q b => simp

lemma hasRoom_iff (r : Rep base [] h c live) (hf : h.freep ∈ c) : HasRoom h n ↔ ∃ x ∈ c, n ≤ h.size x := by
  constructor
  · rintro ⟨j, hj⟩
    have hmem : ∀ j, h.ptr^[j] h.freep ∈ c := by
      intro j
      induction j with
      | zero => exact hf
      | succ j ih =>
        rw [Function.iterate_succ_apply']
        exact r.ptr_mem ih
    exact ⟨_, hmem j, hj⟩
  · rintro ⟨x, hx, hle⟩
    obtain ⟨v, -, hl, hmem⟩ := r.cycle hf
    obtain ⟨j, hj⟩ := reached_of_chain hl (List.mem_cons_of_mem _ ((hmem x).2 hx))
    exact ⟨j, by rwa [hj]⟩

lemma plus_live {b : ℕ} (r : Rep base [] h c (b :: live)) : plus b 1 = b + HEADER := by
  have hne : b ≠ base := by
    rintro rfl
    exact r.base_live (by simp)
  have hpl := r.placed b (by simp) hne
  have hin : b + 1 * HEADER < WORD := by
    simp only [HEADER] at hpl ⊢
    omega
  rw [plus_eq hin, Nat.one_mul]

end Rep

/-- Calls that return the same for all fuel from `N` on decide what is honest. -/
lemma honest_iff_of_run {N res : ℕ}
    (hrun : ∀ fuel, N ≤ fuel → malloc base fuel m.heap sbrk nbytes = some (h', res)) :
    Honest base m nbytes sbrk ↔
      (∃ M, ∀ fuel, M ≤ fuel → ∀ nu ∈ asked base fuel m.heap sbrk nbytes, sbrkArg nu = nu * HEADER) ∧
        (res = 0 ∨ nbytes + HEADER ≤ h'.size (res - HEADER) * HEADER) := by
  constructor
  · rintro ⟨M, g, r, hall, hres⟩
    have hsame := (hall (max N M) (by omega)).1
    rw [hrun (max N M) (by omega)] at hsame
    injection hsame with hsame
    injection hsame with hg hr
    rw [hg, hr]
    exact ⟨⟨M, fun fuel hfuel => (hall fuel hfuel).2⟩, hres⟩
  · rintro ⟨⟨M, hasked⟩, hres⟩
    exact ⟨max N M, h', res, fun fuel hfuel => ⟨hrun fuel (by omega), hasked fuel (by omega)⟩, hres⟩

/-- `malloc` serves a request as it should exactly if the unit count does not wrap, or no block is
found and `sbrk` fails; and, when it has to ask for memory, the bytes it asks for are a positive
integer. -/
theorem malloc_honest_iff (base : ℕ) (m : Machine) (nbytes : ℕ) (sbrk : ℕ → ℕ → Option ℕ) (hbase : 0 < base)
    (hi : Inv base m) (hn : nbytes < WORD)
    (hs : ∀ p, sbrk 0 (request (units nbytes) * HEADER) = some p →
      request (units nbytes) * HEADER < 2147483648 → Fresh base m.heap p (request (units nbytes) * HEADER)) :
    Honest base m nbytes sbrk ↔
      (HasRoom (makeBase base m.heap) (units nbytes) → nbytes + HEADER - 1 < WORD) ∧
      (¬ HasRoom (makeBase base m.heap) (units nbytes) → request (units nbytes) * HEADER < 2147483648 ∧
        (nbytes + HEADER - 1 < WORD ∨ sbrk 0 (request (units nbytes) * HEADER) = none)) := by
  obtain ⟨c, hr, hf, hchunks, -⟩ := hi.makeBase hbase
  have hpos : 0 < units nbytes := Nat.succ_pos _
  have hblock : ∀ {b : ℕ} {h' : Heap} {c' : List ℕ}, Rep base [] h' c' (b :: m.live) → h'.size b = units nbytes →
      (plus b 1 = 0 ∨ nbytes + HEADER ≤ h'.size (plus b 1 - HEADER) * HEADER ↔ nbytes + HEADER - 1 < WORD) := by
    intro b h' c' hr' hb
    have hne : ¬ b + HEADER = 0 := by simp only [HEADER]; omega
    rw [hr'.plus_live, Nat.add_sub_cancel, hb, units_bytes_iff hn, or_iff_right hne]
  obtain ⟨v, hv, hl, hmem⟩ := hr.cycle hf
  by_cases hroom : HasRoom (makeBase base m.heap) (units nbytes)
  · obtain ⟨x, hx, hle⟩ := (hr.hasRoom_iff hf).1 hroom
    obtain ⟨N, h', b, c', hrun, -, -, hb, hr'⟩ := hr.found_rep 0 sbrk hf hpos ⟨x, hx, hle⟩
    have hnone : ∀ fuel, asked base fuel m.heap sbrk nbytes = [] := fun fuel =>
      asked_found hl ⟨x, (hmem x).2 hx, hle⟩ hv
    rw [honest_iff_of_run hrun, hblock hr' hb]
    simp [hroom, hnone]
  · have hfull : ∀ x ∈ c, (makeBase base m.heap).size x < units nbytes := by
      intro x hx
      by_contra hle
      exact hroom ((hr.hasRoom_iff hf).2 ⟨x, hx, by omega⟩)
    obtain ⟨N, hwait⟩ := hr.full_rep 0 sbrk hf hfull
    have hasks : ∀ fuel, v.length < fuel → request (units nbytes) ∈ asked base fuel m.heap sbrk nbytes := by
      intro fuel hfuel
      have hask : request (units nbytes) ∈ asked base (fuel - v.length - 1 + v.length + 1) m.heap sbrk nbytes :=
        asked_full hl (fun x hx => hfull x ((hmem x).1 hx)) hv
      rwa [show fuel - v.length - 1 + v.length + 1 = fuel by omega] at hask
    by_cases hbytes : request (units nbytes) * HEADER < 2147483648
    · have hword : request (units nbytes) * HEADER < WORD := by simp only [WORD]; omega
      have hasked : ∃ M, ∀ fuel, M ≤ fuel →
          ∀ nu ∈ asked base fuel m.heap sbrk nbytes, sbrkArg nu = nu * HEADER := by
        refine ⟨0, fun fuel _ nu hnu => ?_⟩
        have hreq : nu = request (units nbytes) := eq_of_mem_asked hnu
        rw [hreq]
        exact sbrkArg_eq_iff.2 hbytes
      have hlater : ∀ fuel, N ≤ fuel → malloc base fuel m.heap sbrk nbytes =
          refill (units nbytes) sbrk (fuel - N) 0 (makeBase base m.heap) := by
        intro fuel hfuel
        rw [← hwait (fuel - N), Nat.sub_add_cancel hfuel]
        rfl
      cases hp : sbrk 0 (request (units nbytes) * HEADER) with
      | none =>
        have hrun : ∀ fuel, N ≤ fuel → malloc base fuel m.heap sbrk nbytes = some (makeBase base m.heap, 0) := by
          intro fuel hfuel
          rw [hlater fuel hfuel, refill_none hword hp]
        rw [honest_iff_of_run hrun]
        simp [hroom, hbytes, hasked]
      | some p =>
        have hfresh : Fresh base (makeBase base m.heap) p (request (units nbytes) * HEADER) := by
          have := hs p hp hbytes
          rwa [Fresh, hchunks]
        obtain ⟨N', h', b, c', hrefill, -, -, hb, hr'⟩ := hr.refill_rep hf hbase hpos hword hp hfresh
        have hrun : ∀ fuel, N + N' ≤ fuel → malloc base fuel m.heap sbrk nbytes = some (h', plus b 1) := by
          intro fuel hfuel
          rw [hlater fuel (by omega), hrefill (fuel - N) (by omega)]
        rw [honest_iff_of_run hrun, hblock hr' hb]
        simp [hroom, hbytes, hasked]
    · refine iff_of_false ?_ fun h => hbytes (h.2 hroom).1
      rintro ⟨M, g, r, hall, -⟩
      have := (hall (max M (v.length + 1)) (by omega)).2 _ (hasks _ (by omega))
      exact hbytes (sbrkArg_eq_iff.1 this)

/-- The allocator before its first call. -/
def fresh : Machine := ⟨⟨fun _ => 0, fun _ => 0, 0, []⟩, []⟩

theorem malloc_honest_iff_given : Honest 16 fresh 8 (fun _ _ => some 4096) ↔
    (HasRoom (makeBase 16 fresh.heap) (units 8) → 8 + HEADER - 1 < WORD) ∧
    (¬ HasRoom (makeBase 16 fresh.heap) (units 8) → request (units 8) * HEADER < 2147483648 ∧
      (8 + HEADER - 1 < WORD ∨ (some 4096 : Option ℕ) = none)) := by
  refine malloc_honest_iff 16 fresh 8 (fun _ _ => some 4096) (by decide) (Or.inl ⟨rfl, rfl, rfl⟩) (by decide) fun p hp _ => ?_
  injection hp with hp
  rw [← hp]
  exact ⟨by decide, by decide, by simp [fresh]⟩

/-- A request for 2³² - 1 bytes is served with a block of none. -/
theorem malloc_wraps : ¬ ∀ (base : ℕ) (m : Machine) (nbytes : ℕ) (sbrk : ℕ → ℕ → Option ℕ), 0 < base →
    Inv base m → nbytes < WORD → (∀ p, sbrk 0 (request (units nbytes) * HEADER) = some p →
      request (units nbytes) * HEADER < 2147483648 → Fresh base m.heap p (request (units nbytes) * HEADER)) →
    Honest base m nbytes sbrk := by
  intro h
  have hgive : ∀ p, (fun _ _ => some 4096 : ℕ → ℕ → Option ℕ) 0 (request (units 4294967295) * HEADER) = some p →
      request (units 4294967295) * HEADER < 2147483648 →
      Fresh 16 fresh.heap p (request (units 4294967295) * HEADER) := by
    intro p hp _
    injection hp with hp
    rw [← hp]
    exact ⟨by decide, by decide, by simp [fresh]⟩
  obtain ⟨N, h', res, hall, hres⟩ := h 16 fresh 4294967295 (fun _ _ => some 4096) (by decide)
    (Or.inl ⟨rfl, rfl, rfl⟩) (by decide) hgive
  have hrun := (hall (10 + N) (by omega)).1
  cases hten : malloc 16 10 fresh.heap (fun _ _ => some 4096) 4294967295 with
  | none =>
    have : (malloc 16 10 fresh.heap (fun _ _ => some 4096) 4294967295).isSome = true := by decide +kernel
    rw [hten] at this
    simp at this
  | some r =>
    have hsize : (malloc 16 10 fresh.heap (fun _ _ => some 4096) 4294967295).map
        (fun r => (r.2, r.1.size (r.2 - HEADER))) = some (36864, 1) := by decide +kernel
    have hlate : malloc 16 (10 + N) fresh.heap (fun _ _ => some 4096) 4294967295 = some (r.1, r.2) :=
      mallocLoop_mono hten
    rw [hlate] at hrun
    injection hrun with hrun
    injection hrun with hg hr
    rw [hten, Option.map_some] at hsize
    injection hsize with hsize
    injection hsize with hres' hsize'
    rw [← hg, ← hr, hsize', hres'] at hres
    simp [HEADER] at hres

end Os132.User

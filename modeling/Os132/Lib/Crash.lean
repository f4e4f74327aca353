import Mathlib.Tactic.Common

/-!
# Programs that may be cut off

A program over a state `σ` may return or stop with an error; in both cases it leaves a state, and
the state records in order what the program has written (`hist`). `wp` is the weakest precondition
of a program for a postcondition on return, together with a crash condition: the record satisfies
it at the start and after every single write, wherever the program is cut off.
-/

namespace Crash

variable {ε σ ω α β : Type}

/-- The state that a program leaves, whether it returns or stops. -/
def last : EStateM.Result ε σ α → σ
  | .ok _ s => s
  | .error _ s => s

/-- From `s` the program only extends the record, `crash` holds of the record after each write, and
`post` holds on return. -/
def wp (hist : σ → List ω) (crash : List ω → Prop) (x : EStateM ε σ α) (s : σ) (post : α → σ → Prop) : Prop :=
  ∃ ws, hist (last (x s)) = hist s ++ ws ∧ (∀ k, k ≤ ws.length → crash (hist s ++ ws.take k)) ∧
    ∀ a s', x s = .ok a s' → post a s'

variable {hist : σ → List ω} {crash : List ω → Prop} {x : EStateM ε σ α} {s : σ} {post post' : α → σ → Prop}

lemma wp.mono (h : wp hist crash x s post) (hp : ∀ a s', post a s' → post' a s') :
    wp hist crash x s post' := by
  obtain ⟨ws, hw, hc, hpost⟩ := h
  exact ⟨ws, hw, hc, fun a s' ha => hp a s' (hpost a s' ha)⟩

lemma wp.weaken {crash' : List ω → Prop} (h : wp hist crash x s post) (hc : ∀ ws, crash ws → crash' ws) :
    wp hist crash' x s post := by
  obtain ⟨ws, hw, hcr, hpost⟩ := h
  exact ⟨ws, hw, fun k hk => hc _ (hcr k hk), hpost⟩

lemma wp_quiet (hs : hist (last (x s)) = hist s) (hc : crash (hist s))
    (hp : ∀ a s', x s = .ok a s' → post a s') : wp hist crash x s post := by
  refine ⟨[], by simpa using hs, fun k hk => by simpa using hc, hp⟩

lemma wp_pure {a : α} (hc : crash (hist s)) (hp : post a s) :
    wp hist crash (pure a : EStateM ε σ α) s post :=
  wp_quiet rfl hc (fun _ _ h => by cases h; exact hp)

lemma wp_throw {e : ε} (hc : crash (hist s)) : wp hist crash (throw e : EStateM ε σ α) s post :=
  wp_quiet rfl hc (fun _ _ h => by cases h)

lemma wp_modify {f : σ → σ} {post : Unit → σ → Prop} (hc : crash (hist s)) (hf : hist (f s) = hist s)
    (hp : post () (f s)) : wp hist crash (modify f : EStateM ε σ Unit) s post :=
  wp_quiet hf hc (fun _ _ h => by cases h; exact hp)

lemma wp_write {f : σ → σ} {w : ω} {post : Unit → σ → Prop} (hc : crash (hist s))
    (hf : hist (f s) = hist s ++ [w]) (hw : crash (hist s ++ [w])) (hp : post () (f s)) :
    wp hist crash (modify f : EStateM ε σ Unit) s post := by
  refine ⟨[w], hf, fun k hk => ?_, fun _ _ h => by cases h; exact hp⟩
  match k with
  | 0 => simpa using hc
  | 1 => simpa using hw
  | k + 2 => simp at hk

lemma bind_ok {f : α → EStateM ε σ β} {a : α} {s' : σ} (h : x s = .ok a s') : (x >>= f) s = f a s' := by
  show EStateM.bind x f s = _
  simp [EStateM.bind, h]

lemma bind_error {f : α → EStateM ε σ β} {e : ε} {s' : σ} (h : x s = .error e s') :
    (x >>= f) s = .error e s' := by
  show EStateM.bind x f s = _
  simp [EStateM.bind, h]

/-- What the first program writes is written before what the second one writes. -/
lemma wp_bind {f : α → EStateM ε σ β} {post : β → σ → Prop}
    (h : wp hist crash x s fun a s' => wp hist crash (f a) s' post) : wp hist crash (x >>= f) s post := by
  obtain ⟨ws, hw, hc, hp⟩ := h
  cases hx : x s with
  | error e s' =>
    rw [hx] at hw
    refine ⟨ws, by rw [bind_error hx]; exact hw, hc, fun a s'' ha => ?_⟩
    rw [bind_error hx] at ha
    cases ha
  | ok a s' =>
    obtain ⟨vs, hv, hcv, hpv⟩ := hp a s' hx
    rw [hx] at hw
    have hw : hist s' = hist s ++ ws := hw
    refine ⟨ws ++ vs, by rw [bind_ok hx, hv, hw, List.append_assoc], fun k hk => ?_, ?_⟩
    · by_cases hkw : k ≤ ws.length
      · rw [List.take_append_of_le_length hkw]
        exact hc k hkw
      · have := hcv (k - ws.length) (by simp at hk; omega)
        rw [hw, List.append_assoc] at this
        rwa [List.take_append, List.take_of_length_le (by omega)]
    · rw [bind_ok hx]
      exact hpv

lemma wp_get_bind {f : σ → EStateM ε σ β} {post : β → σ → Prop} (h : wp hist crash (f s) s post) :
    wp hist crash (get >>= f) s post := by
  have hx : (get : EStateM ε σ σ) s = .ok s s := rfl
  obtain ⟨ws, hw, hc, hp⟩ := h
  exact ⟨ws, by rw [bind_ok hx]; exact hw, hc, by rw [bind_ok hx]; exact hp⟩

/-! ### Programs that return -/

/-- The program returns, and then `post` holds. -/
def Returns (x : EStateM ε σ α) (s : σ) (post : α → σ → Prop) : Prop := ∃ a s', x s = .ok a s' ∧ post a s'

lemma Returns.mono (h : Returns x s post) (hp : ∀ a s', post a s' → post' a s') : Returns x s post' := by
  obtain ⟨a, s', ha, h⟩ := h
  exact ⟨a, s', ha, hp a s' h⟩

lemma returns_bind {f : α → EStateM ε σ β} {post : β → σ → Prop}
    (h : Returns x s fun a s' => Returns (f a) s' post) : Returns (x >>= f) s post := by
  obtain ⟨a, s', ha, b, s'', hb, hp⟩ := h
  exact ⟨b, s'', by rw [bind_ok ha, hb], hp⟩

lemma returns_get_bind {f : σ → EStateM ε σ β} {post : β → σ → Prop} (h : Returns (f s) s post) :
    Returns (get >>= f) s post := h

lemma returns_pure {a : α} (hp : post a s) : Returns (pure a : EStateM ε σ α) s post := ⟨a, s, rfl, hp⟩

lemma returns_modify {f : σ → σ} {post : Unit → σ → Prop} (hp : post () (f s)) :
    Returns (modify f : EStateM ε σ Unit) s post := ⟨(), f s, rfl, hp⟩

lemma Returns.of_wp (h : Returns x s fun _ _ => True) (hw : wp hist (fun _ => True) x s post) : Returns x s post := by
  obtain ⟨a, s', ha, -⟩ := h
  obtain ⟨_, -, -, hp⟩ := hw
  exact ⟨a, s', ha, hp a s' ha⟩

end Crash

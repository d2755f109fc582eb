import Mathlib.Tactic

/-!
# Runs of calls

A machine is given by what one call does: it answers and leaves a new state
(`run`), or it may also stop for good (`List.foldlM` in `Option`).  A property
that every call keeps holds after any run, and a machine that answers every call
as another one does answers every run as the other does.
-/

namespace MiniHaywire

universe u

variable {S T C R : Type*}

/-- The answers to a sequence of calls, and the state after the last one. -/
def run (step : C → S → R × S) : List C → S → List R × S
  | [], s => ([], s)
  | c :: cs, s =>
    let (r, s) := step c s
    let (rs, s) := run step cs s
    (r :: rs, s)

@[simp] theorem run_nil (step : C → S → R × S) (s : S) : run step [] s = ([], s) := rfl

theorem run_cons (step : C → S → R × S) (c : C) (cs : List C) (s : S) :
    run step (c :: cs) s =
      ((step c s).1 :: (run step cs (step c s).2).1, (run step cs (step c s).2).2) := rfl

/-- A machine that answers every call as another one does, up to a translation `f` of the
    answers. -/
theorem run_simulates_map {R' : Type*} {f : R' → R} {step : C → S → R × S} {step' : C → T → R' × T}
    {sim : S → T → Prop}
    (hstep : ∀ c s t, sim s t → (step c s).1 = f (step' c t).1 ∧ sim (step c s).2 (step' c t).2) :
    ∀ (cs : List C) (s : S) (t : T), sim s t →
      (run step cs s).1 = (run step' cs t).1.map f ∧ sim (run step cs s).2 (run step' cs t).2 := by
  intro cs
  induction cs with
  | nil =>
    intro s t hst
    exact ⟨rfl, hst⟩
  | cons c cs ih =>
    intro s t hst
    obtain ⟨hreply, hnext⟩ := hstep c s t hst
    obtain ⟨hreplies, hlast⟩ := ih _ _ hnext
    rw [run_cons, run_cons, hreply, hreplies]
    exact ⟨rfl, hlast⟩

theorem run_simulates {step : C → S → R × S} {step' : C → T → R × T} {sim : S → T → Prop}
    (hstep : ∀ c s t, sim s t → (step c s).1 = (step' c t).1 ∧ sim (step c s).2 (step' c t).2)
    (cs : List C) (s : S) (t : T) (hst : sim s t) :
    (run step cs s).1 = (run step' cs t).1 ∧ sim (run step cs s).2 (run step' cs t).2 := by
  have h := run_simulates_map (f := id) hstep cs s t hst
  rwa [List.map_id] at h

/-- A computation that succeeded, taken apart at a bind. -/
theorem except_bind_eq_ok {ε : Type*} {α β : Type u} {x : Except ε α} {f : α → Except ε β} {b : β}
    (h : (x >>= f) = .ok b) : ∃ a, x = .ok a ∧ f a = .ok b := by
  cases x with
  | error e => contradiction
  | ok a => exact ⟨a, rfl, h⟩

theorem except_ok_bind {ε : Type*} {α β : Type u} (a : α) (f : α → Except ε β) :
    (Except.ok a >>= f) = f a := rfl

/-- A loop over the numbers below `n` that fails nowhere: what holds at its start and goes over
    from each round to the next holds at its end. -/
theorem foldlM_range_ok {ε : Type*} {σ : Type u} {f : σ → Nat → Except ε σ} (I : Nat → σ → Prop)
    {n : Nat} {s : σ} (hstart : I 0 s)
    (hstep : ∀ i s, i < n → I i s → ∃ s', f s i = .ok s' ∧ I (i + 1) s') :
    ∃ s', (List.range n).foldlM f s = .ok s' ∧ I n s' := by
  induction n with
  | zero => exact ⟨s, rfl, hstart⟩
  | succ n ih =>
    obtain ⟨s₁, hloop, h₁⟩ := ih fun i s hi => hstep i s (Nat.lt_succ_of_lt hi)
    obtain ⟨s₂, hround, h₂⟩ := hstep n s₁ (Nat.lt_succ_self n) h₁
    refine ⟨s₂, ?_, h₂⟩
    rw [List.range_succ, List.foldlM_append, hloop, except_ok_bind, List.foldlM_cons, hround]
    rfl

/-! ### Moves of an environment -/

section Moves

variable {W : Type u} {M σ : Type*} {move : M → W → Option W} {I : W → Prop}

/-- The moves of a list, one after the other; `none` as soon as one is impossible. -/
def moves (move : M → W → Option W) (ms : List M) (w : W) : Option W :=
  ms.foldlM (fun w m => move m w) w

theorem moves_append (move : M → W → Option W) (ms ms' : List M) (w : W) :
    moves move (ms ++ ms') w = (moves move ms w).bind (moves move ms') :=
  List.foldlM_append

theorem moves_preserves (hmove : ∀ m w w', I w → move m w = some w' → I w') :
    ∀ (ms : List M) (w w' : W), I w → moves move ms w = some w' → I w' := by
  intro ms
  induction ms with
  | nil =>
    intro w w' hw h
    cases h
    exact hw
  | cons m ms ih =>
    intro w w' hw h
    obtain ⟨mid, hmid, hrest⟩ := Option.bind_eq_some_iff.mp h
    exact ih mid w' (hmove m w mid hw hmid) hrest

/-- A polling loop with a state `σ` of its own.  While there is `more` to do it does a `chunk`;
    unless it is to `stop` after that, the environment moves and the loop gives a `kick`. -/
structure Poll (σ W : Type*) where
  more : σ → W → Bool
  chunk : σ → W → σ × W
  stop : σ → Bool
  kick : W → W

/-- What the environment does during the rounds of a polling loop.  A loop that needs more
    rounds is still in it at the end: before its chunk, or after the moves of `last`. -/
structure Schedule (M : Type*) where
  rounds : List (List M)
  last : Option (List M)

/-- The loop along the rounds of a schedule, and whether it has ended. -/
def Poll.loop (L : Poll σ W) (move : M → W → Option W) (last : Option (List M)) :
    List (List M) → σ → W → Option (Bool × W)
  | [], s, w =>
    if L.more s w then
      match last with
      | none => some (false, w)
      | some ms =>
        if L.stop (L.chunk s w).1 then some (true, (L.chunk s w).2)
        else (moves move ms (L.chunk s w).2).map (false, ·)
    else some (true, w)
  | ms :: rounds, s, w =>
    if L.more s w then
      if L.stop (L.chunk s w).1 then some (true, (L.chunk s w).2)
      else (moves move ms (L.chunk s w).2).bind fun w' =>
        L.loop move last rounds (L.chunk s w).1 (L.kick w')
    else some (true, w)

def Poll.run (L : Poll σ W) (move : M → W → Option W) (sched : Schedule M) (s : σ) (w : W) :
    Option (Bool × W) :=
  L.loop move sched.last sched.rounds s w

theorem Poll.loop_preserves (L : Poll σ W) (hmove : ∀ m w w', I w → move m w = some w' → I w')
    (hchunk : ∀ s w, I w → I (L.chunk s w).2) (hkick : ∀ w, I w → I (L.kick w))
    (last : Option (List M)) : ∀ (rounds : List (List M)) (s : σ) (w : W) (r : Bool × W),
      I w → L.loop move last rounds s w = some r → I r.2 := by
  intro rounds
  induction rounds with
  | nil =>
    intro s w r hw h
    unfold Poll.loop at h
    split at h
    · split at h
      · cases h
        exact hw
      · split at h
        · cases h
          exact hchunk s w hw
        · obtain ⟨w', hw', rfl⟩ := Option.map_eq_some_iff.mp h
          exact moves_preserves hmove _ _ _ (hchunk s w hw) hw'
    · cases h
      exact hw
  | cons ms rounds ih =>
    intro s w r hw h
    unfold Poll.loop at h
    split at h
    · split at h
      · cases h
        exact hchunk s w hw
      · obtain ⟨w', hw', hrest⟩ := Option.bind_eq_some_iff.mp h
        exact ih _ _ r (hkick w' (moves_preserves hmove _ _ _ (hchunk s w hw) hw')) hrest
    · cases h
      exact hw

end Moves

end MiniHaywire

import Mathlib.Data.Fintype.Card
import Mathlib.Data.Set.Finite.Basic
import Mathlib.Logic.Relation

/-!
# Walking a graph without a set of visited vertices

A vertex is visited, then the vertices it leads to are walked from, one after the
other; nothing records where the walk has been.  On a graph with finitely many
vertices in reach the walk ends exactly if none of them leads back to itself
(`exists_walk_iff`), and then it has visited every vertex in reach
(`mem_walk_iff`).
-/

namespace MiniHaywire.GraphWalk

open Relation (ReflTransGen TransGen)

variable {V : Type*} (next : V → List V)

/-- One walk after the other; `none` if one of them does not end. -/
def walkAll (walk : V → Option (List V)) : List V → Option (List V)
  | [] => some []
  | v :: vs => do
    let first ← walk v
    let rest ← walkAll walk vs
    some (first ++ rest)

/-- The vertices that the walk from a vertex visits, in order, at most `fuel` deep. -/
def walk : Nat → V → Option (List V)
  | 0, _ => none
  | fuel + 1, v => (walkAll (walk fuel) (next v)).map (v :: ·)

def Edge (a b : V) : Prop := b ∈ next a

/-! ### One walk after the other -/

section All

variable {f g : V → Option (List V)} {v w : V} {vs ws : List V}

theorem walkAll_cons_eq_some :
    walkAll f (v :: vs) = some ws ↔
      ∃ first rest, f v = some first ∧ walkAll f vs = some rest ∧ ws = first ++ rest := by
  rw [walkAll]
  cases f v with
  | none => simp
  | some first =>
    cases walkAll f vs with
    | none => simp
    | some rest => simp [eq_comm]

theorem mem_walkAll (h : walkAll f vs = some ws) :
    w ∈ ws ↔ ∃ v ∈ vs, ∃ us, f v = some us ∧ w ∈ us := by
  induction vs generalizing ws with
  | nil =>
    cases h
    simp
  | cons v vs ih =>
    obtain ⟨first, rest, hfirst, hrest, rfl⟩ := walkAll_cons_eq_some.mp h
    simp only [List.mem_append, ih hrest, List.exists_mem_cons_iff, hfirst, Option.some.injEq,
      exists_eq_left']

theorem exists_of_walkAll (h : walkAll f vs = some ws) : ∀ v ∈ vs, ∃ us, f v = some us := by
  induction vs generalizing ws with
  | nil => simp
  | cons v vs ih =>
    obtain ⟨first, rest, hfirst, hrest, -⟩ := walkAll_cons_eq_some.mp h
    exact List.forall_mem_cons.mpr ⟨⟨first, hfirst⟩, ih hrest⟩

theorem walkAll_mono (hfg : ∀ v ∈ vs, ∀ us, f v = some us → g v = some us)
    (h : walkAll f vs = some ws) : walkAll g vs = some ws := by
  induction vs generalizing ws with
  | nil => exact h
  | cons v vs ih =>
    obtain ⟨first, rest, hfirst, hrest, rfl⟩ := walkAll_cons_eq_some.mp h
    rw [List.forall_mem_cons] at hfg
    exact walkAll_cons_eq_some.mpr ⟨first, rest, hfg.1 first hfirst, ih hfg.2 hrest, rfl⟩

end All

/-! ### A walk -/

section Walk

variable {next} {fuel : Nat} {v w : V} {vs : List V}

theorem walk_succ_eq_some :
    walk next (fuel + 1) v = some vs ↔
      ∃ ws, walkAll (walk next fuel) (next v) = some ws ∧ vs = v :: ws := by
  rw [walk, Option.map_eq_some_iff]
  simp only [eq_comm]

theorem walk_succ (h : walk next fuel v = some vs) : walk next (fuel + 1) v = some vs := by
  induction fuel generalizing v vs with
  | zero => exact absurd h (by simp [walk])
  | succ fuel ih =>
    obtain ⟨ws, hws, rfl⟩ := walk_succ_eq_some.mp h
    exact walk_succ_eq_some.mpr ⟨ws, walkAll_mono (fun u _ us hu => ih hu) hws, rfl⟩

theorem walk_mono {fuel' : Nat} (hle : fuel ≤ fuel') (h : walk next fuel v = some vs) :
    walk next fuel' v = some vs := by
  induction hle with
  | refl => exact h
  | step _ ih => exact walk_succ ih

theorem exists_walkAll (h : ∀ v ∈ vs, ∃ fuel us, walk next fuel v = some us) :
    ∃ fuel ws, walkAll (walk next fuel) vs = some ws := by
  induction vs with
  | nil => exact ⟨0, [], rfl⟩
  | cons v vs ih =>
    obtain ⟨⟨fuel₁, us, hus⟩, hrest⟩ := List.forall_mem_cons.mp h
    obtain ⟨fuel₂, ws, hws⟩ := ih hrest
    refine ⟨max fuel₁ fuel₂, us ++ ws, walkAll_cons_eq_some.mpr ⟨us, ws, ?_, ?_, rfl⟩⟩
    · exact walk_mono (le_max_left _ _) hus
    · exact walkAll_mono (fun u _ us hu => walk_mono (le_max_right _ _) hu) hws

theorem mem_walk_iff (h : walk next fuel v = some vs) :
    w ∈ vs ↔ ReflTransGen (Edge next) v w := by
  induction fuel generalizing v vs with
  | zero => exact absurd h (by simp [walk])
  | succ fuel ih =>
    obtain ⟨ws, hws, rfl⟩ := walk_succ_eq_some.mp h
    rw [List.mem_cons, mem_walkAll hws, Relation.ReflTransGen.cases_head_iff, eq_comm]
    refine or_congr_right (exists_congr fun u => ?_)
    constructor
    · rintro ⟨hu, us, hus, hw⟩
      exact ⟨hu, (ih hus).mp hw⟩
    · rintro ⟨hu, hw⟩
      obtain ⟨us, hus⟩ := exists_of_walkAll hws u hu
      exact ⟨hu, us, hus, (ih hus).mpr hw⟩

/-- A walk ends if the vertex is accessible. -/
theorem exists_walk_iff_acc :
    (∃ fuel vs, walk next fuel v = some vs) ↔ Acc (fun b a => Edge next a b) v := by
  constructor
  · rintro ⟨fuel, vs, h⟩
    induction fuel generalizing v vs with
    | zero => exact absurd h (by simp [walk])
    | succ fuel ih =>
      obtain ⟨ws, hws, -⟩ := walk_succ_eq_some.mp h
      refine Acc.intro v fun u hu => ?_
      obtain ⟨us, hus⟩ := exists_of_walkAll hws u hu
      exact ih us hus
  · intro h
    induction h with
    | intro v _ ih =>
      obtain ⟨fuel, ws, hws⟩ := exists_walkAll ih
      exact ⟨fuel + 1, v :: ws, walk_succ_eq_some.mpr ⟨ws, hws, rfl⟩⟩

theorem not_cycle_of_acc (h : Acc (fun b a => Edge next a b) v)
    (hreach : ReflTransGen (Edge next) v w) : ¬TransGen (Edge next) w w := by
  induction h generalizing w with
  | intro v _ ih =>
    intro hcycle
    rcases Relation.ReflTransGen.cases_head hreach with rfl | ⟨u, hu, hreach⟩
    · -- the cycle passes through a vertex one step further on
      obtain ⟨u, hu, hback⟩ := Relation.TransGen.head'_iff.mp hcycle
      exact ih u hu .refl (Relation.TransGen.tail' hback hu)
    · exact ih u hu hreach hcycle

/-- Where only finitely many vertices are in reach and none lies on a cycle, every step gets
    closer to an end. -/
theorem acc_of_not_cycle (hfin : {w | ReflTransGen (Edge next) v w}.Finite)
    (h : ∀ w, ReflTransGen (Edge next) v w → ¬TransGen (Edge next) w w) :
    Acc (fun b a => Edge next a b) v := by
  let Reach := {w // ReflTransGen (Edge next) v w}
  have : Finite Reach := hfin
  let below : Reach → Reach → Prop := fun b a => TransGen (Edge next) a.1 b.1
  have : IsTrans Reach below := ⟨fun a b c hab hbc => hbc.trans hab⟩
  have : Std.Irrefl below := ⟨fun a hcycle => h a.1 a.2 hcycle⟩
  have hwf : WellFounded below := Finite.wellFounded_of_trans_of_irrefl below
  suffices hacc : ∀ a : Reach, Acc (fun b a => Edge next a b) a.1 from hacc ⟨v, .refl⟩
  intro a
  induction a using hwf.induction with
  | _ a ih =>
    refine Acc.intro a.1 fun b hb => ?_
    exact ih ⟨b, a.2.tail hb⟩ (.single hb)

/-- A walk ends exactly if nothing in reach leads back to itself. -/
theorem exists_walk_iff (hfin : {w | ReflTransGen (Edge next) v w}.Finite) :
    (∃ fuel vs, walk next fuel v = some vs) ↔
      ∀ w, ReflTransGen (Edge next) v w → ¬TransGen (Edge next) w w := by
  rw [exists_walk_iff_acc]
  exact ⟨fun h w hw => not_cycle_of_acc h hw, acc_of_not_cycle hfin⟩

end Walk

end MiniHaywire.GraphWalk

import MiniHaywire.RangeMapCompact

/-!
# Calls on any zone

A zone may contain no address: it ends where it starts, or before.  Every method has
a test for that of its own.  `_overlap_range` and `populate` ask whether the range is
empty; `replace` asks only whether the two ends are equal.  A zone that ends before it
starts gets through, and `replace` stores it in front of all others.

Where no `replace` was given such a zone, the lists stay in order through any calls,
and `compact` is a normal form.
-/

namespace MiniHaywire.RangeMap

open Intervals

section Calls

variable {α : Type} {equal : α → α → Bool} {empty : α → Bool} {st : State α} {zone : Zone}

/-- The test of `replace` lets a zone through that ends before it starts. -/
theorem replace_reversed (hzone : zone.stop < zone.start) (r : Ref) :
    st.replace zone r = some
      { st with map :=
          ⟨zone.start :: st.map.starts, (zone.stop - 1) :: st.map.ends, r :: st.map.values⟩ } := by
  have hempty : ¬ zone.Nonempty := not_lt.mpr hzone.le
  unfold State.replace
  rw [if_neg (ne_of_gt hzone), overlapRange_empty hempty]
  rfl

/-! ### Whole runs -/

/-- The states that calls lead to if no `replace` gets a zone that ends before it starts.  In
    between the caller may change what any object holds and make new objects. -/
inductive Reached (equal : α → α → Bool) (empty : α → Bool) : State α → Prop
  | init (o : Objects α) : Reached equal empty ⟨⟨[], [], []⟩, o⟩
  | replace {st st' : State α} {zone : Zone} {r : Ref} (h : Reached equal empty st)
      (hzone : zone.start ≤ zone.stop) (hr : r < st.objs.next)
      (hcall : st.replace zone r = some st') : Reached equal empty st'
  | clear {st st' : State α} {zone : Zone} (h : Reached equal empty st)
      (hcall : st.clear zone = some st') : Reached equal empty st'
  | clearAll {st : State α} (h : Reached equal empty st) :
      Reached equal empty ⟨⟨[], [], []⟩, st.objs⟩
  | populate {st st' : State α} {zone : Zone} {d : Ref} {upd : Int → Int → α → α}
      {ys : List (Entry Ref)} (h : Reached equal empty st) (hd : d < st.objs.next)
      (hcall : st.populate zone d upd = some (ys, st')) : Reached equal empty st'
  | overlaps {st st' : State α} {zone : Zone} {split : Bool} {upd : Int → Int → α → α}
      {ys : List (Entry Ref)} (h : Reached equal empty st)
      (hcall : st.overlaps zone split upd = some (ys, st')) : Reached equal empty st'
  | compact {st : State α} (h : Reached equal empty st) :
      Reached equal empty (st.compact equal empty)
  | caller {st : State α} {o : Objects α} (h : Reached equal empty st)
      (hnext : st.objs.next ≤ o.next) : Reached equal empty ⟨st.map, o⟩

theorem Reached.inOrder (h : Reached equal empty st) : st.InOrder := by
  induction h with
  | init o => exact ⟨[], rfl, ordered_nil, by simp⟩
  | replace _ hzone hr hcall ih =>
    obtain ⟨st', heq, hin⟩ := ih.replace hzone hr
    cases heq.symm.trans hcall
    exact hin
  | clear _ hcall ih =>
    obtain ⟨st', heq, hin⟩ := ih.clear _
    cases heq.symm.trans hcall
    exact hin
  | clearAll _ _ => exact ⟨[], rfl, ordered_nil, by simp⟩
  | populate _ hd hcall ih => exact ih.populate hd hcall
  | overlaps _ hcall ih =>
    obtain ⟨ys, st', heq, hin⟩ := ih.overlaps _ _ _
    cases heq.symm.trans hcall
    exact hin
  | compact _ ih =>
    obtain ⟨es, hes⟩ := ih
    obtain ⟨es', hes', -⟩ := hes.compact equal empty
    exact ⟨es', hes'⟩
  | caller _ hnext ih => exact ih.caller hnext

theorem State.Holds.parallel {es : List (Entry Ref)} (h : st.Holds es) : st.map.Parallel := by
  rw [h.1]
  exact Ordered.parallel h.2.ordered

theorem State.Holds.lookup {es : List (Entry Ref)} (h : st.Holds es) (a : Int) :
    st.map.lookup a = valueAt es a := by
  rw [h.1]
  exact lookup_ofEntries h.2.ordered a

/-! ### Calls that do nothing -/

/-- The calls that leave a state as it is and yield nothing. -/
structure LeftAlone (st : State α) (zone : Zone) : Prop where
  clear : st.clear zone = some st
  populate : ∀ d upd, st.populate zone d upd = some ([], st)
  overlaps : ∀ split upd, st.overlaps zone split upd = some ([], st)

/-- `replace` changes no lookup, and the lists stay in order. -/
def ReplaceLeaves (st : State α) (zone : Zone) (r : Ref) : Prop :=
  ∃ st', st.replace zone r = some st' ∧ st'.map.Parallel ∧
    ∀ a, st'.map.lookup a = st.map.lookup a

/-- On a zone without an address `clear`, `populate` and `overlaps` do nothing, in any state.
    After any calls with zones that do not end before they start, `replace` leaves all lookups and
    the order of the lists as they were exactly if the zone ends where it starts. -/
theorem empty_zone_calls (hzone : ¬ zone.Nonempty) :
    (∀ st : State α, LeftAlone st zone) ∧
    ∀ st : State α, Reached equal empty st → st.map.Parallel ∧
      ∀ r, ReplaceLeaves st zone r ↔ zone.start = zone.stop := by
  refine ⟨fun st => ⟨clear_empty hzone, populate_empty hzone, overlaps_empty hzone⟩, ?_⟩
  intro st h
  obtain ⟨es, hes⟩ := h.inOrder
  refine ⟨hes.parallel, fun r => ⟨?_, fun hends => ?_⟩⟩
  · rintro ⟨st', heq, hparallel, -⟩
    by_contra hends
    -- the new range is the first one, and it ends before it starts
    have hreversed : zone.stop < zone.start := lt_of_le_of_ne (not_lt.mp hzone) (Ne.symm hends)
    cases (replace_reversed hreversed r).symm.trans heq
    have hle := hparallel.nonempty 0 zone.start (zone.stop - 1) rfl rfl
    omega
  · exact ⟨st, replace_empty hends r, hes.parallel, fun _ => rfl⟩

/-- Numbers, of which `0` is the empty one; the objects `1` and `2` are equal. -/
def numbers : Objects Nat := ⟨fun r => if r = 2 then 1 else r, 3⟩

/-- A new map after calls of `replace`. -/
def replaced (calls : List (Zone × Ref)) : Option (State Nat) :=
  calls.foldlM (fun st call => st.replace call.1 call.2) ⟨⟨[], [], []⟩, numbers⟩

theorem empty_zone_calls_slice :
    ∃ st, replaced [(.range 0 10, 1)] = some st ∧ LeftAlone st (.slice (some 3) (some 3)) ∧
      ReplaceLeaves st (.slice (some 3) (some 3)) 1 := by
  have hempty : ¬ (Zone.slice (some 3) (some 3)).Nonempty := by decide
  obtain ⟨hleft, hreplace⟩ :=
    @empty_zone_calls Nat (fun a b => a == b) (fun a => a == 0) _ hempty
  have hreached : Reached (fun a b => a == b) (fun a => a == 0) ⟨⟨[0], [9], [1]⟩, numbers⟩ :=
    @Reached.replace _ _ _ _ _ (.range 0 10) 1 (.init numbers) (by decide) (by decide) rfl
  exact ⟨_, rfl, hleft _, ((hreplace _ hreached).2 1).mpr rfl⟩

/-- `replace(range(20, 5), val)` stores a range from 20 to 4 in front, and `lookup` stops
    there. -/
theorem reversed_zone_stored :
    ∃ st st', replaced [(.range 0 10, 1)] = some st ∧ ¬ (Zone.range 20 5).Nonempty ∧
      st.replace (.range 20 5) 1 = some st' ∧ ¬ st'.map.Parallel ∧
      st.map.lookup 3 = some 1 ∧ st'.map.lookup 3 = none := by
  refine ⟨⟨⟨[0], [9], [1]⟩, numbers⟩, ⟨⟨[20, 0], [4, 9], [1, 1]⟩, numbers⟩, rfl, by decide, rfl, ?_,
    by decide, by decide⟩
  intro h
  exact absurd (h.nonempty 0 20 4 rfl rfl) (by decide)

/-! ### The normal form -/

/-- What `compact` is for: what is not empty is kept up to equality and nothing else is, and
    ranges that could be joined are. -/
structure Normalises (equal : α → α → Bool) (empty : α → Bool) (st st' : State α) : Prop where
  kept : ∀ a x, st.value a = some x → empty x = false →
    ∃ y, st'.value a = some y ∧ equal y x = true
  absent : ∀ a, (∀ x, st.value a = some x → empty x = true) → st'.map.lookup a = none
  parallel : st'.map.Parallel
  joined : ∀ (i j : Nat) (e s : Int) (u v : Ref), st'.map.ends[i]? = some e →
    st'.map.starts[j]? = some s → st'.map.values[i]? = some u → st'.map.values[j]? = some v →
    s = e + 1 → equal (st'.objs.content u) (st'.objs.content v) = false
  again : st'.compact equal empty = st'

theorem State.Holds.joined {es : List (Entry Ref)} (h : st.Holds es)
    (hnormal : Normal equal empty st.objs.content es) {i j : Nat} {e s : Int} {u v : Ref}
    (he : st.map.ends[i]? = some e) (hs : st.map.starts[j]? = some s)
    (hu : st.map.values[i]? = some u) (hv : st.map.values[j]? = some v) (htouch : s = e + 1) :
    equal (st.objs.content u) (st.objs.content v) = false := by
  rw [h.1] at he hs hu hv
  simp only [ofEntries, List.getElem?_map, Option.map_eq_some_iff] at he hs hu hv
  obtain ⟨x, hx, rfl⟩ := he
  obtain ⟨y, hy, rfl⟩ := hs
  obtain ⟨x', hx', rfl⟩ := hu
  obtain ⟨y', hy', rfl⟩ := hv
  cases hx.symm.trans hx'
  cases hy.symm.trans hy'
  have hnot := hnormal.apart h.2.ordered (List.mem_of_getElem? hx) (List.mem_of_getElem? hy)
  rw [Joins, not_and, imp_not_comm] at hnot
  simpa using hnot htouch

theorem State.Holds.compact_normal {es : List (Entry Ref)} (h : st.Holds es)
    (hnormal : Normal equal empty st.objs.content es) : st.compact equal empty = st := by
  obtain ⟨map, o⟩ := st
  obtain ⟨rfl, -⟩ := h
  have hloop : compactLoop equal empty o.content [] es = es := compactLoop_normal es hnormal
  rw [State.compact]
  dsimp only
  rw [entries_ofEntries, hloop]

/-- **`compact` is a normal form.** After any calls with zones that do not end before they start:
    an address keeps a value equal to the one it had unless that is empty, nothing else is stored,
    no two ranges that touch have equal values, and a second `compact` changes nothing. -/
theorem compact_normal_form (hequal : Equivalence fun x y => equal x y = true)
    (h : Reached equal empty st) : Normalises equal empty st (st.compact equal empty) := by
  obtain ⟨es, hes⟩ := h.inOrder
  obtain ⟨es', hes', hcompacts⟩ := hes.compact equal empty
  refine ⟨?_, ?_, hes'.parallel, fun i j e s u v => hes'.joined hcompacts.normal,
    hes'.compact_normal hcompacts.normal⟩
  · intro a x hx hne
    rw [State.value, hes.lookup] at hx
    obtain ⟨r, hr, rfl⟩ := Option.map_eq_some_iff.mp hx
    obtain ⟨r', hr', hsame⟩ := hcompacts.kept_value hr hne
    refine ⟨st.objs.content r', ?_, ?_⟩
    · rw [State.value, hes'.lookup, hr']
      rfl
    · rcases hsame with rfl | hsame
      · exact hequal.refl _
      · exact hsame
  · intro a hall
    rw [hes'.lookup]
    refine Option.eq_none_iff_forall_ne_some.mpr fun r' hr' => ?_
    obtain ⟨r, hr, hne⟩ := hcompacts.value_origin hes.2.ordered hr'
    have hempty := hall (st.objs.content r) (by rw [State.value, hes.lookup, hr]; rfl)
    rw [hne] at hempty
    cases hempty

theorem compact_normal_form_two :
    ∃ st, replaced [(.range 0 4, 1), (.range 4 8, 2), (.range 9 12, 0)] = some st ∧
      Normalises (fun a b => a == b) (fun a => a == 0) st
        (st.compact (fun a b => a == b) fun a => a == 0) ∧
      (st.compact (fun a b => a == b) fun a => a == 0).map = ⟨[0], [7], [1]⟩ := by
  have hequal : Equivalence fun x y : Nat => (x == y) = true := by
    simpa using (eq_equivalence : Equivalence (@Eq Nat))
  have hreached : Reached (fun a b => a == b) (fun a => a == 0)
      ⟨⟨[0, 4, 9], [3, 7, 11], [1, 2, 0]⟩, numbers⟩ :=
    have hfirst : Reached (fun a b => a == b) (fun a => a == 0) ⟨⟨[0], [3], [1]⟩, numbers⟩ :=
      @Reached.replace _ _ _ _ _ (.range 0 4) 1 (.init numbers) (by decide) (by decide) rfl
    have hsecond : Reached (fun a b => a == b) (fun a => a == 0)
        ⟨⟨[0, 4], [3, 7], [1, 2]⟩, numbers⟩ :=
      @Reached.replace _ _ _ _ _ (.range 4 8) 2 hfirst (by decide) (by decide) rfl
    @Reached.replace _ _ _ _ _ (.range 9 12) 0 hsecond (by decide) (by decide) rfl
  exact ⟨_, rfl, compact_normal_form hequal hreached, by decide⟩

/-- After `replace(range(20, 0), val)` the first range ends at -1, so `compact` joins the range
    from 0 on to it: the result starts at 20. -/
theorem compact_loses_value :
    ∃ st, replaced [(.range 0 10, 1), (.range 20 0, 2)] = some st ∧ st.value 3 = some 1 ∧
      (st.compact (fun a b => a == b) fun a => a == 0).value 3 = none :=
  ⟨_, rfl, by decide, by decide⟩

end Calls

end MiniHaywire.RangeMap

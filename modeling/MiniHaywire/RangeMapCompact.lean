import MiniHaywire.RangeMapPoints

/-!
# Compacting a range map

`compact` goes over the ranges once.  It drops those with an empty value, and joins
one to the last that it kept if the two touch and hold equal values; the value of the
first of them stays.  Nothing is asked of the test for equality here: what a joined
range holds instead of the value that was there is equal to it by that test.
-/

namespace MiniHaywire.RangeMap

open Intervals

section Compact

variable {α : Type} (equal : α → α → Bool) (empty : α → Bool) (content : Ref → α)

/-! ### The loop -/

theorem compactLoop_nil (kept : List (Entry Ref)) :
    compactLoop equal empty content kept [] = kept.reverse := by
  rw [compactLoop.eq_def]

theorem compactLoop_cons (kept : List (Entry Ref)) (e : Entry Ref) (es : List (Entry Ref)) :
    compactLoop equal empty content kept (e :: es) =
      if empty (content e.val) then compactLoop equal empty content kept es
      else
        match kept with
        | [] => compactLoop equal empty content [e] es
        | last :: before =>
          if equal (content last.val) (content e.val) ∧ e.lo = last.hi + 1 then
            compactLoop equal empty content (⟨last.lo, e.hi, last.val⟩ :: before) es
          else compactLoop equal empty content (e :: last :: before) es := by
  refine (compactLoop.eq_def ..).trans ?_
  cases kept <;> rfl

/-- The second range goes on where the first one ends, with an equal value. -/
def Joins (e f : Entry Ref) : Prop :=
  equal (content e.val) (content f.val) = true ∧ f.lo = e.hi + 1

/-- No value is empty, and nothing is left to join. -/
structure Normal (es : List (Entry Ref)) : Prop where
  nonempty : ∀ e ∈ es, empty (content e.val) = false
  chain : es.IsChain fun e f => ¬ Joins equal content e f

/-- The result `es'` of the loop from what was kept, with the last one first, and what is to
    come. -/
structure Compacts (kept es es' : List (Entry Ref)) : Prop where
  ordered : Ordered es'
  normal : Normal equal empty content es'
  values : (es'.map Entry.val).Sublist ((kept.reverse ++ es).map Entry.val)
  extended : ∀ k ∈ kept, ∃ f ∈ es', f.lo = k.lo ∧ k.hi ≤ f.hi ∧ f.val = k.val
  covered : ∀ e ∈ es, empty (content e.val) = false → ∃ f ∈ es', f.lo ≤ e.lo ∧ e.hi ≤ f.hi ∧
    (f.val = e.val ∨ equal (content f.val) (content e.val) = true)
  origin : ∀ f ∈ es', ∀ a, f.lo ≤ a → a ≤ f.hi → (∃ k ∈ kept, k.lo ≤ a ∧ a ≤ k.hi) ∨
    ∃ e ∈ es, empty (content e.val) = false ∧ e.lo ≤ a ∧ a ≤ e.hi

variable {equal empty content} {kept before es es' : List (Entry Ref)} {e last : Entry Ref}

theorem compacts_nil (h : Ordered kept.reverse) (hkept : Normal equal empty content kept.reverse) :
    Compacts equal empty content kept [] kept.reverse where
  ordered := h
  normal := hkept
  values := by simp
  extended k hk := ⟨k, List.mem_reverse.mpr hk, rfl, le_rfl, rfl⟩
  covered := by simp
  origin f hf a hlo hhi := .inl ⟨f, List.mem_reverse.mp hf, hlo, hhi⟩

theorem Compacts.drop (h : Compacts equal empty content kept es es')
    (hempty : empty (content e.val) = true) : Compacts equal empty content kept (e :: es) es' where
  ordered := h.ordered
  normal := h.normal
  values := h.values.trans (((List.sublist_cons_self e es).append_left _).map _)
  extended := h.extended
  covered f hf hne := by
    rcases List.mem_cons.mp hf with rfl | hf
    · simp [hempty] at hne
    · exact h.covered f hf hne
  origin f hf a hlo hhi := by
    rcases h.origin f hf a hlo hhi with hk | ⟨g, hg, hrest⟩
    · exact .inl hk
    · exact .inr ⟨g, List.mem_cons_of_mem _ hg, hrest⟩

theorem Compacts.push (h : Compacts equal empty content (e :: kept) es es')
    (hne : empty (content e.val) = false) : Compacts equal empty content kept (e :: es) es' where
  ordered := h.ordered
  normal := h.normal
  values := by simpa using h.values
  extended k hk := h.extended k (List.mem_cons_of_mem _ hk)
  covered f hf hne' := by
    rcases List.mem_cons.mp hf with rfl | hf
    · obtain ⟨g, hg, hlo, hhi, hval⟩ := h.extended f List.mem_cons_self
      exact ⟨g, hg, le_of_eq hlo, hhi, .inl hval⟩
    · exact h.covered f hf hne'
  origin f hf a hlo hhi := by
    rcases h.origin f hf a hlo hhi with ⟨k, hk, hin⟩ | ⟨g, hg, hrest⟩
    · rcases List.mem_cons.mp hk with rfl | hk
      · exact .inr ⟨k, List.mem_cons_self, hne, hin⟩
      · exact .inl ⟨k, hk, hin⟩
    · exact .inr ⟨g, List.mem_cons_of_mem _ hg, hrest⟩

theorem Compacts.join
    (h : Compacts equal empty content (⟨last.lo, e.hi, last.val⟩ :: before) es es')
    (hne : empty (content e.val) = false) (hjoin : Joins equal content last e)
    (hlast : last.lo ≤ last.hi) (he : e.lo ≤ e.hi) :
    Compacts equal empty content (last :: before) (e :: es) es' where
  ordered := h.ordered
  normal := h.normal
  values := by
    refine h.values.trans ?_
    simp
  extended k hk := by
    rcases List.mem_cons.mp hk with rfl | hk
    · obtain ⟨f, hf, hlo, hhi, hval⟩ := h.extended _ List.mem_cons_self
      have htouch := hjoin.2
      dsimp only at hlo hhi
      exact ⟨f, hf, hlo, by omega, hval⟩
    · exact h.extended k (List.mem_cons_of_mem _ hk)
  covered f hf hne' := by
    rcases List.mem_cons.mp hf with rfl | hf
    · obtain ⟨g, hg, hlo, hhi, hval⟩ := h.extended _ List.mem_cons_self
      have htouch := hjoin.2
      dsimp only at hlo hhi hval
      refine ⟨g, hg, by omega, hhi, .inr ?_⟩
      rw [hval]
      exact hjoin.1
    · exact h.covered f hf hne'
  origin f hf a hlo hhi := by
    rcases h.origin f hf a hlo hhi with ⟨k, hk, hin⟩ | ⟨g, hg, hrest⟩
    · rcases List.mem_cons.mp hk with rfl | hk
      · have htouch := hjoin.2
        dsimp only at hin
        by_cases ha : a ≤ last.hi
        · exact .inl ⟨last, List.mem_cons_self, hin.1, ha⟩
        · exact .inr ⟨e, List.mem_cons_self, hne, by omega, hin.2⟩
      · exact .inl ⟨k, List.mem_cons_of_mem _ hk, hin⟩
    · exact .inr ⟨g, List.mem_cons_of_mem _ hg, hrest⟩

theorem Normal.snoc (h : Normal equal empty content kept.reverse)
    (hne : empty (content e.val) = false) (hlast : ∀ k ∈ kept.head?, ¬ Joins equal content k e) :
    Normal equal empty content (e :: kept).reverse := by
  rw [List.reverse_cons]
  refine ⟨?_, List.isChain_append.mpr ⟨h.chain, List.isChain_singleton e, ?_⟩⟩
  · intro f hf
    rcases List.mem_append.mp hf with hf | hf
    · exact h.nonempty f hf
    · rw [List.mem_singleton.mp hf]
      exact hne
  · intro k hk f hf
    rw [List.getLast?_reverse] at hk
    simp only [List.head?_cons, Option.mem_def, Option.some.injEq] at hf
    exact hf ▸ hlast k hk

theorem compactLoop_compacts (es : List (Entry Ref)) : ∀ {kept : List (Entry Ref)},
    Ordered (kept.reverse ++ es) → Normal equal empty content kept.reverse →
      Compacts equal empty content kept es (compactLoop equal empty content kept es) := by
  induction es with
  | nil =>
    intro kept h hkept
    rw [compactLoop_nil]
    exact compacts_nil (by simpa using h) hkept
  | cons e es ih =>
    intro kept h hkept
    rw [compactLoop_cons]
    by_cases hempty : empty (content e.val) = true
    · have hsub : (kept.reverse ++ es).Sublist (kept.reverse ++ e :: es) :=
        (List.sublist_cons_self e es).append_left _
      rw [if_pos hempty]
      exact (ih ⟨fun f hf => h.nonempty f (hsub.mem hf), h.apart.sublist hsub⟩ hkept).drop hempty
    · have hne : empty (content e.val) = false := by simpa using hempty
      have hpushed : Ordered ((e :: kept).reverse ++ es) := by simpa using h
      rw [if_neg hempty]
      rcases kept with _ | ⟨last, before⟩
      · exact (ih hpushed (hkept.snoc hne (by simp))).push hne
      · dsimp only
        by_cases hjoin : equal (content last.val) (content e.val) = true ∧ e.lo = last.hi + 1
        · rw [if_pos hjoin]
          have hsplit : Ordered (before.reverse ++ last :: e :: es) := by simpa using h
          obtain ⟨hbefore, hrest, hseam⟩ := ordered_append.mp hsplit
          obtain ⟨hlast, htail, -⟩ := ordered_cons.mp hrest
          obtain ⟨he, hes, hafter⟩ := ordered_cons.mp htail
          refine (ih ?_ ?_).join hne hjoin hlast he
          · rw [List.reverse_cons, List.append_assoc, List.singleton_append]
            refine ordered_append.mpr ⟨hbefore, ordered_cons.mpr ⟨?_, hes, hafter⟩, ?_⟩
            · dsimp only
              omega
            · intro f hf g hg
              rcases List.mem_cons.mp hg with rfl | hg
              · exact hseam f hf last (by simp)
              · exact hseam f hf g (by simp [hg])
          · -- the joined range starts where the last one did, with its value
            rw [List.reverse_cons] at hkept
            obtain ⟨hchain, -, hlink⟩ := List.isChain_append.mp hkept.chain
            refine Normal.snoc ⟨fun f hf => hkept.nonempty f (by simp [hf]), hchain⟩
              (hkept.nonempty last (by simp)) ?_
            intro k hk
            exact hlink k (by rwa [List.getLast?_reverse]) last (by simp)
        · rw [if_neg hjoin]
          refine (ih hpushed (hkept.snoc hne ?_)).push hne
          intro k hk
          simp only [List.head?_cons, Option.mem_def, Option.some.injEq] at hk
          exact hk ▸ hjoin

theorem compactLoop_normal (es : List (Entry Ref)) : ∀ {kept : List (Entry Ref)},
    Normal equal empty content (kept.reverse ++ es) →
      compactLoop equal empty content kept es = kept.reverse ++ es := by
  induction es with
  | nil =>
    intro kept _
    rw [compactLoop_nil, List.append_nil]
  | cons e es ih =>
    intro kept h
    have hne := h.nonempty e (by simp)
    have hpushed : compactLoop equal empty content (e :: kept) es = (e :: kept).reverse ++ es :=
      ih (by simpa using h)
    simp only [List.reverse_cons, List.append_assoc, List.singleton_append] at hpushed
    rw [compactLoop_cons, if_neg (by simp [hne])]
    rcases kept with _ | ⟨last, before⟩
    · exact hpushed
    · have hjoin : ¬ Joins equal content last e := by
        have hchain := h.chain
        rw [List.reverse_cons, List.append_assoc] at hchain
        obtain ⟨-, hrest, -⟩ := List.isChain_append.mp hchain
        exact (List.isChain_cons_cons.mp hrest).1
      rw [Joins] at hjoin
      dsimp only
      rw [if_neg hjoin]
      exact hpushed

/-! ### Ordered entries -/

theorem Normal.apart (h : Normal equal empty content es) (hord : Ordered es) {e f : Entry Ref}
    (he : e ∈ es) (hf : f ∈ es) : ¬ Joins equal content e f := by
  intro hjoin
  have htouch := hjoin.2
  obtain ⟨xs, ys, rfl⟩ := List.append_of_mem he
  obtain ⟨-, hrest, hseam⟩ := ordered_append.mp hord
  obtain ⟨hne, hys, hafter⟩ := ordered_cons.mp hrest
  have hnf := hord.nonempty f hf
  rcases List.mem_append.mp hf with hf | hf
  · have hlt := hseam f hf e (by simp)
    omega
  rcases List.mem_cons.mp hf with rfl | hf
  · omega
  · obtain ⟨-, hchain, -⟩ := List.isChain_append.mp h.chain
    rcases ys with _ | ⟨g, ys⟩
    · cases hf
    · rcases List.mem_cons.mp hf with rfl | hf
      · exact (List.isChain_cons_cons.mp hchain).1 hjoin
      · have hlt := hafter g (by simp)
        obtain ⟨hng, -, hafter'⟩ := ordered_cons.mp hys
        have hlt' := hafter' f hf
        omega

variable (h : Compacts equal empty content [] es es')

include h

theorem Compacts.kept_value {a : Int} {r : Ref} (hr : valueAt es a = some r)
    (hne : empty (content r) = false) :
    ∃ r', valueAt es' a = some r' ∧ (r' = r ∨ equal (content r') (content r) = true) := by
  obtain ⟨e, he, hlo, hhi, rfl⟩ := mem_of_valueAt hr
  obtain ⟨f, hf, hlo', hhi', hval⟩ := h.covered e he hne
  exact ⟨f.val, h.ordered.valueAt_mem hf (by omega) (by omega), hval⟩

theorem Compacts.value_origin (hord : Ordered es) {a : Int} {r' : Ref}
    (hr : valueAt es' a = some r') : ∃ r, valueAt es a = some r ∧ empty (content r) = false := by
  obtain ⟨f, hf, hlo, hhi, rfl⟩ := mem_of_valueAt hr
  rcases h.origin f hf a hlo hhi with ⟨k, hk, -⟩ | ⟨e, he, hne, hlo', hhi'⟩
  · cases hk
  · exact ⟨e.val, hord.valueAt_mem he hlo' hhi', hne⟩

end Compact

theorem entries_ofEntries (es : List (Entry Ref)) : (ofEntries es).entries = es := by
  induction es with
  | nil => rfl
  | cons e es ih =>
    have hcons : (ofEntries (e :: es)).entries = e :: (ofEntries es).entries := rfl
    rw [hcons, ih]

theorem State.Holds.compact {α : Type} {st : State α} {es : List (Entry Ref)} (h : st.Holds es)
    (equal : α → α → Bool) (empty : α → Bool) :
    ∃ es', (st.compact equal empty).Holds es' ∧
      Compacts equal empty st.objs.content [] es es' := by
  obtain ⟨hmap, hsane⟩ := h
  have hcompacts : Compacts equal empty st.objs.content [] es
      (compactLoop equal empty st.objs.content [] es) :=
    compactLoop_compacts es hsane.ordered ⟨by simp, List.isChain_nil⟩
  refine ⟨_, ⟨?_, hcompacts.ordered, ?_⟩, hcompacts⟩
  · rw [State.compact, hmap, entries_ofEntries]
  · intro e he
    obtain ⟨f, hf, heq⟩ := List.mem_map.mp (hcompacts.values.mem (List.mem_map_of_mem he))
    exact heq ▸ hsane.known f hf

end MiniHaywire.RangeMap

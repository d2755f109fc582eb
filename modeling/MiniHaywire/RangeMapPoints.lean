import MiniHaywire.RangeMap

/-!
# Range maps, address by address

What the methods of a range map do to the value at each address.  The map denotes
the partial function `State.value`; every method acts on it pointwise.

A change in place of an object that is yielded shows wherever that object is
stored.  The map itself never stores an object twice: it copies where it splits a
range or fills a gap.  A caller can, by handing the same object to `replace` again.
So what holds of a method together with the changes of its caller is stated for
maps without such sharing, and what holds of the method alone for all maps.
-/

namespace MiniHaywire.RangeMap

open Intervals

variable {α : Type} {o : Objects α} {es : List (Entry Ref)} {zone : Zone}

/-! ### Points -/

theorem value_ofEntries (h : Ordered es) (a : Int) :
    State.value ⟨ofEntries es, o⟩ a = view o es a := by
  unfold State.value view
  rw [lookup_ofEntries h]

theorem replace_points (h : Sane o es) (hzone : zone.Nonempty) {r : Ref} (hr : r < o.next) :
    ∃ es' o', State.replace ⟨ofEntries es, o⟩ zone r = some ⟨ofEntries es', o'⟩ ∧
      Sane o' es' ∧ o.next ≤ o'.next ∧
      (∀ q < o.next, o'.content q = o.content q) ∧
      (∀ a, zone.Contains a → valueAt es' a = some r) ∧
      (∀ a, ¬ zone.Contains a → view o' es' a = view o es a) ∧
      (∀ e ∈ es', e.val ∈ es.map Entry.val ∨ e.val = r ∨ o.next ≤ e.val) ∧
      (Unshared es → r ∉ es.map Entry.val → Unshared es') := by
  have hlt : zone.start < zone.stop := hzone
  obtain ⟨pre, mid, post, o', heq, href, hcut⟩ := replace_spec h hzone r
  have hcut' : Cut zone pre [⟨zone.start, zone.stop - 1, r⟩] post := by
    refine ⟨hcut.before, ?_, hcut.behind⟩
    intro e he
    rw [List.mem_singleton.mp he]
    exact ⟨le_refl _, by dsimp only; omega⟩
  have hone : Ordered [(⟨zone.start, zone.stop - 1, r⟩ : Entry Ref)] :=
    ordered_cons.mpr ⟨by dsimp only; omega, ordered_nil, by simp⟩
  have hsane : Sane o' (pre ++ ([⟨zone.start, zone.stop - 1, r⟩] ++ post)) := by
    refine hcut'.sane hzone href.sane hone ?_
    intro e he
    rw [List.mem_singleton.mp he]
    exact hr.trans_le href.next_le
  refine ⟨_, o', heq, hsane, href.next_le, href.content_eq, ?_, ?_, ?_, ?_⟩
  · intro a ha
    refine hsane.ordered.valueAt_mem (e := ⟨zone.start, zone.stop - 1, r⟩) (by simp) ha.1 ?_
    have hstop := ha.2
    dsimp only
    omega
  · intro a ha
    rw [hcut'.view_outside ha, ← hcut.view_outside ha, href.view_eq]
  · intro e he
    simp only [List.mem_append, List.mem_singleton] at he
    rcases he with he | rfl | he
    · exact (href.origin e (by simp [he])).imp id Or.inr
    · exact Or.inr (Or.inl rfl)
    · exact (href.origin e (by simp [he])).imp id Or.inr
  · intro hun hnot
    have hsub : ((pre ++ post).map Entry.val).Sublist ((pre ++ (mid ++ post)).map Entry.val) :=
      ((List.sublist_append_right mid post).append_left pre).map Entry.val
    have hperm : ((pre ++ ([(⟨zone.start, zone.stop - 1, r⟩ : Entry Ref)] ++ post)).map
        Entry.val).Perm (r :: (pre ++ post).map Entry.val) := by
      simp only [List.map_append, List.singleton_append, List.map_cons]
      exact List.perm_middle
    refine hperm.nodup_iff.mpr (List.nodup_cons.mpr ⟨?_, (href.unshared hun).sublist hsub⟩)
    exact fun hmem => hnot (mem_of_origin href.origin hr (hsub.mem hmem))

theorem clear_points (h : Sane o es) (hzone : zone.Nonempty) :
    ∃ es' o', State.clear ⟨ofEntries es, o⟩ zone = some ⟨ofEntries es', o'⟩ ∧
      Sane o' es' ∧ o.next ≤ o'.next ∧
      (∀ q < o.next, o'.content q = o.content q) ∧
      (∀ a, view o' es' a = if zone.Contains a then none else view o es a) ∧
      (∀ e ∈ es', e.val ∈ es.map Entry.val ∨ o.next ≤ e.val) ∧
      (Unshared es → Unshared es') := by
  obtain ⟨pre, mid, post, o', heq, href, hcut⟩ := clear_spec h hzone
  have hcut' : Cut zone pre [] post := ⟨hcut.before, by simp, hcut.behind⟩
  have hsub : (pre ++ ([] ++ post)).Sublist (pre ++ (mid ++ post)) :=
    (List.sublist_append_right mid post).append_left pre
  refine ⟨_, o', heq, hcut'.sane hzone href.sane ordered_nil (by simp), href.next_le,
    href.content_eq, ?_, fun e he => href.origin e (hsub.mem he), fun hun => ?_⟩
  · intro a
    by_cases ha : zone.Contains a
    · rw [if_pos ha, hcut'.view_inside ha]
      rfl
    · rw [if_neg ha, hcut'.view_outside ha, ← hcut.view_outside ha, href.view_eq]
  · exact (href.unshared hun).sublist (hsub.map Entry.val)

theorem touch_content (upd : Int → Int → α → α) (ys : List (Entry Ref)) :
    ∀ (o : Objects α) (r : Ref),
    Idle upd ∨ r ∉ ys.map Entry.val → (touch upd ys o).content r = o.content r := by
  induction ys with
  | nil =>
    intro o r _
    rfl
  | cons y ys ih =>
    intro o r hcase
    have hrest := ih (o.modify y.val (upd y.lo (y.hi + 1))) r
      (hcase.imp id fun hnot hmem => hnot (by simp [hmem]))
    rw [touch, List.foldl_cons]
    refine hrest.trans ?_
    rcases hcase with hidle | hnot
    · exact modify_idle hidle ..
    · exact modify_content_of_ne _ _ fun heq => hnot (by simp [heq])

theorem touch_mem (upd : Int → Int → α → α) {ys : List (Entry Ref)} (hun : Unshared ys) :
    ∀ (o : Objects α), ∀ y ∈ ys,
      (touch upd ys o).content y.val = upd y.lo (y.hi + 1) (o.content y.val) := by
  induction ys with
  | nil =>
    intro o y hy
    cases hy
  | cons z ys ih =>
    intro o y hy
    obtain ⟨hnot, hrest⟩ := List.nodup_cons.mp hun
    rw [touch, List.foldl_cons]
    rcases List.mem_cons.mp hy with rfl | hy
    · refine (touch_content upd ys _ y.val (Or.inr hnot)).trans ?_
      rw [modify_content_self]
    · refine (ih hrest _ y hy).trans ?_
      rw [modify_content_of_ne]
      intro heq
      exact hnot (heq ▸ List.mem_map_of_mem hy)

theorem touch_next (upd : Int → Int → α → α) (ys : List (Entry Ref)) : ∀ o : Objects α,
    (touch upd ys o).next = o.next := by
  induction ys with
  | nil =>
    intro o
    rfl
  | cons y ys ih =>
    intro o
    exact ih _

/-- What `overlaps` yields, and what it and the changes of its caller leave at the points. -/
theorem overlaps_points (upd : Int → Int → α → α) (h : Sane o es) (hzone : zone.Nonempty) :
    ∃ ys es' o', State.overlaps ⟨ofEntries es, o⟩ zone true upd = some (ys, ⟨ofEntries es', o'⟩) ∧
      Sane o' es' ∧ o.next ≤ o'.next ∧ Ordered ys ∧ (∀ y ∈ ys, y ∈ es') ∧
      (∀ a, (∃ y ∈ ys, y.lo ≤ a ∧ a ≤ y.hi) ↔ zone.Contains a ∧ view o es a ≠ none) ∧
      (∀ q < o.next, Idle upd ∨ q ∉ es.map Entry.val → o'.content q = o.content q) ∧
      (Idle upd ∨ Unshared es →
        (∀ a, (¬ ∃ y ∈ ys, y.lo ≤ a ∧ a ≤ y.hi) → view o' es' a = view o es a) ∧
        ∀ y ∈ ys, ∀ a, y.lo ≤ a → a ≤ y.hi →
          view o' es' a = (view o es a).map (upd y.lo (y.hi + 1))) ∧
      (∀ e ∈ es', e.val ∈ es.map Entry.val ∨ o.next ≤ e.val) ∧ (Unshared es → Unshared es') := by
  obtain ⟨pre, mid, post, o', heq, href, hcut⟩ := overlaps_split h hzone upd
  have hnext := touch_next upd mid o'
  have hsane : Sane (touch upd mid o') (pre ++ (mid ++ post)) :=
    ⟨href.sane.ordered, fun e he => by rw [hnext]; exact href.sane.known e he⟩
  have hmid : Ordered mid := (ordered_append.mp (ordered_append.mp href.sane.ordered).2.1).1
  refine ⟨mid, _, _, heq, hsane, by rw [hnext]; exact href.next_le, hmid, fun y hy => by simp [hy],
    ?_, ?_, ?_, href.origin, href.unshared⟩
  · intro a
    rw [← href.view_eq]
    constructor
    · rintro ⟨y, hy, hlo, hhi⟩
      have hin := hcut.inside y hy
      refine ⟨⟨hin.1.trans hlo, lt_of_le_of_lt hhi hin.2⟩, ?_⟩
      rw [view, href.sane.ordered.valueAt_mem (by simp [hy]) hlo hhi]
      simp
    · rintro ⟨hin, hsome⟩
      rw [hcut.view_inside hin, view] at hsome
      cases hv : valueAt mid a with
      | none =>
        rw [hv] at hsome
        exact absurd rfl hsome
      | some v =>
        obtain ⟨y, hy, hlo, hhi, -⟩ := mem_of_valueAt hv
        exact ⟨y, hy, hlo, hhi⟩
  · intro q hq hcase
    refine (touch_content upd mid o' q (hcase.imp id fun hnot hmem => hnot ?_)).trans
      (href.content_eq q hq)
    refine mem_of_origin href.origin hq ?_
    simp only [List.map_append, List.mem_append]
    exact Or.inr (Or.inl hmem)
  · intro hcase
    have hother : ∀ e ∈ pre ++ post, (touch upd mid o').content e.val = o'.content e.val := by
      intro e he
      refine touch_content upd mid o' e.val (hcase.imp id fun hun hmem => ?_)
      obtain ⟨-, hrest, hpre⟩ := unshared_append.mp (href.unshared hun)
      obtain ⟨-, -, hpost⟩ := unshared_append.mp hrest
      rcases List.mem_append.mp he with he | he
      · refine hpre e he ?_
        rw [List.map_append]
        exact List.mem_append_left _ hmem
      · obtain ⟨y, hy, heq⟩ := List.mem_map.mp hmem
        exact hpost y hy (heq ▸ List.mem_map_of_mem he)
    constructor
    · intro a hnot
      rw [← href.view_eq]
      by_cases ha : zone.Contains a
      · have hnone : valueAt mid a = none :=
          valueAt_eq_none fun y hy hcover => hnot ⟨y, hy, hcover⟩
        rw [hcut.view_inside ha, hcut.view_inside ha, view, view, hnone]
        rfl
      · rw [hcut.view_outside ha, view_congr hother, ← hcut.view_outside ha]
    · intro y hy a hlo hhi
      have hin : y ∈ pre ++ (mid ++ post) := by simp [hy]
      rw [← href.view_eq, view, view, href.sane.ordered.valueAt_mem hin hlo hhi, Option.map_some,
        Option.map_some, Option.map_some]
      congr 1
      rcases hcase with hidle | hun
      · rw [touch_content upd mid o' y.val (Or.inl hidle), hidle]
      · obtain ⟨-, hrest, -⟩ := unshared_append.mp (href.unshared hun)
        exact touch_mem upd (unshared_append.mp hrest).1 o' y hy

/-- What `populate` and the changes of its caller leave at the points. -/
structure Populated (zone : Zone) (d : Ref) (upd : Int → Int → α → α) (o : Objects α)
    (es : List (Entry Ref)) (o' : Objects α) (ys es' : List (Entry Ref)) : Prop where
  sane : Sane o' es'
  next_le : o.next ≤ o'.next
  tiles : Tiles zone.start zone.stop ys
  stored : ∀ y ∈ ys, y ∈ es'
  found : ∀ y ∈ ys, ∀ a, y.lo ≤ a → a ≤ y.hi → ∀ r, valueAt es a = some r →
    y.val = r ∨ o.next ≤ y.val
  fresh : ∀ y ∈ ys, ∀ a, y.lo ≤ a → a ≤ y.hi → valueAt es a = none → o.next ≤ y.val
  outside : Harmless upd d es → ∀ a, ¬ zone.Contains a → view o' es' a = view o es a
  inside : Harmless upd d es → ∀ y ∈ ys, ∀ a, y.lo ≤ a → a ≤ y.hi →
    view o' es' a = some (upd y.lo (y.hi + 1) ((view o es a).getD (o.content d)))
  kept : ∀ q < o.next, Idle upd ∨ q ∉ es.map Entry.val → o'.content q = o.content q
  origin : ∀ e ∈ es', e.val ∈ es.map Entry.val ∨ o.next ≤ e.val
  unshared : Unshared es → Unshared es'

theorem Filled.view_outside {d : Ref} {upd : Int → Int → α → α} {o₁ o' : Objects α}
    {pre rest mid post : List (Entry Ref)}
    (h : Filled d upd zone.start zone.stop o₁ rest o' mid post)
    (hpre : ∀ e ∈ pre, e.hi < zone.start) (hrest : ∀ e ∈ rest, zone.start ≤ e.lo)
    (hkept : ∀ e ∈ pre, o'.content e.val = o₁.content e.val) (hharm : Harmless upd d rest) {a : Int}
    (ha : ¬ zone.Contains a) : view o' (pre ++ (mid ++ post)) a = view o₁ (pre ++ rest) a := by
  have hle := h.tiles.le
  have hcut : Cut zone pre mid post := ⟨hpre, h.tiles.bounds, h.behind⟩
  rw [hcut.view_outside ha, view_append, view_congr hkept, view_append]
  congr 1
  by_cases hstart : zone.start ≤ a
  · have hstop : zone.stop ≤ a := by
      by_contra hin
      exact ha ⟨hstart, by omega⟩
    exact h.after hharm a hstop
  · have hpost : valueAt post a = none := valueAt_above fun e he => by
      have hlo := h.behind e he
      omega
    have hnone : valueAt rest a = none := valueAt_above fun e he => by
      have hlo := hrest e he
      omega
    rw [view, view, hpost, hnone]
    rfl

theorem populate_points (upd : Int → Int → α → α) (h : Sane o es) (hzone : zone.Nonempty)
    (hlen : zone.Countable) {d : Ref} (hd : d < o.next) :
    ∃ ys es' o', State.populate ⟨ofEntries es, o⟩ zone d upd = some (ys, ⟨ofEntries es', o'⟩) ∧
      Populated zone d upd o es o' ys es' := by
  obtain ⟨pre, rest, o₁, mid, post, o', heq, href, hpre, hrest, hfill⟩ :=
    populate_spec upd h hzone hlen hd
  have hcut : Cut zone pre mid post := ⟨hpre, hfill.tiles.bounds, hfill.behind⟩
  have hpreKnown : ∀ e ∈ pre, e.val < o₁.next := fun e he => href.sane.known e (by simp [he])
  have hsane : Sane o' (pre ++ (mid ++ post)) := by
    refine ⟨hcut.ordered hzone (ordered_append.mp href.sane.ordered).1 hfill.tiles.ordered
      hfill.ordered, ?_⟩
    intro e he
    rcases List.mem_append.mp he with he | he
    · exact (hpreKnown e he).trans_le hfill.next_le
    · exact hfill.known e he
  -- the entries before the zone are left alone
  have hpreContent : Harmless upd d es → ∀ e ∈ pre, o'.content e.val = o₁.content e.val := by
    intro hharm e he
    refine hfill.kept e.val (hpreKnown e he) ((hharm.refine href hd).imp id fun hun => ?_)
    exact (unshared_append.mp hun.1).2.2 e he
  have hbefore : ∀ a, zone.start ≤ a → valueAt (pre ++ rest) a = valueAt rest a := by
    intro a ha
    rw [valueAt_append, valueAt_below fun e he => (hpre e he).trans_le ha, Option.none_or]
  have hrestView : ∀ a, zone.start ≤ a → view o₁ rest a = view o es a := by
    intro a ha
    rw [← href.view_eq, view, view, hbefore a ha]
  refine ⟨mid, _, o', heq, hsane, href.next_le.trans hfill.next_le, hfill.tiles,
    fun y hy => by simp [hy], ?_, ?_, ?_, ?_, ?_, ?_, ?_⟩
  · intro y hy a hlo hhi r hr
    have hstart := (hfill.tiles.bounds y hy).1.trans hlo
    obtain ⟨r', hr', hcase⟩ := href.found a r hr
    rw [hbefore a hstart] at hr'
    rw [hfill.found y hy a hlo hhi r' hr']
    exact hcase
  · intro y hy a hlo hhi hnone
    have hstart := (hfill.tiles.bounds y hy).1.trans hlo
    have hview := href.view_eq a
    rw [view, view, hnone, hbefore a hstart] at hview
    exact href.next_le.trans
      (hfill.fresh y hy a hlo hhi (Option.map_eq_none_iff.mp hview))
  · intro hharm a ha
    rw [hfill.view_outside hpre hrest (hpreContent hharm) (hharm.refine href hd).suffix ha,
      href.view_eq]
  · intro hharm y hy a hlo hhi
    have hstart := (hfill.tiles.bounds y hy).1.trans hlo
    rw [view, hsane.ordered.valueAt_mem (by simp [hy]) hlo hhi, Option.map_some,
      hfill.filled (hharm.refine href hd).suffix y hy a hlo hhi, hrestView a hstart,
      href.content_eq d hd]
  · intro q hq hcase
    rw [hfill.kept q (hq.trans_le href.next_le), href.content_eq q hq]
    refine hcase.imp id fun hnot hmem => hnot (mem_of_origin href.origin hq ?_)
    rw [List.map_append]
    exact List.mem_append_right _ hmem
  · intro e he
    rcases List.mem_append.mp he with he | he
    · exact href.origin e (by simp [he])
    · exact origin_trans (fun f hf => href.origin f (by simp [hf])) href.next_le hfill.origin e he
  · intro hun
    obtain ⟨hpreUn, hrestUn, hsep⟩ := unshared_append.mp (href.unshared hun)
    refine unshared_append.mpr ⟨hpreUn, hfill.unshared hrestUn, ?_⟩
    intro e he hmem
    exact hsep e he (mem_of_origin hfill.origin (hpreKnown e he) hmem)

/-! ### Calls on any zone -/

variable {st : State α}

def State.Holds (st : State α) (es : List (Entry Ref)) : Prop :=
  st.map = ofEntries es ∧ Sane st.objs es

theorem overlapRange_empty (hzone : ¬ zone.Nonempty) (split : Bool) :
    st.overlapRange zone split = some ((0, 0), st) :=
  if_pos (not_lt.mp hzone)

theorem clear_empty (hzone : ¬ zone.Nonempty) : st.clear zone = some st := by
  unfold State.clear
  split
  · rfl
  · rw [overlapRange_empty hzone]
    rfl

theorem populate_empty (hzone : ¬ zone.Nonempty) (d : Ref) (upd : Int → Int → α → α) :
    st.populate zone d upd = some ([], st) :=
  if_pos (not_lt.mp hzone)

theorem populate_long (hzone : zone.Nonempty) (hlen : ¬ zone.Countable) (d : Ref)
    (upd : Int → Int → α → α) : st.populate zone d upd = none := by
  unfold State.populate
  rw [if_neg (not_le.mpr hzone), if_pos hlen]

theorem countable_of_populate (hzone : zone.Nonempty) {d : Ref} {upd : Int → Int → α → α}
    {r : List (Entry Ref) × State α} (h : st.populate zone d upd = some r) : zone.Countable := by
  by_contra hlen
  rw [populate_long hzone hlen] at h
  contradiction

theorem overlaps_empty (hzone : ¬ zone.Nonempty) (split : Bool) (upd : Int → Int → α → α) :
    st.overlaps zone split upd = some ([], st) := by
  unfold State.overlaps
  rw [overlapRange_empty hzone]
  rfl

theorem replace_empty (hzone : zone.start = zone.stop) (r : Ref) : st.replace zone r = some st :=
  if_pos hzone

/-- Some entries in order are what the lists hold. -/
def State.InOrder (st : State α) : Prop := ∃ es, st.Holds es

theorem State.InOrder.replace (h : st.InOrder) (hzone : zone.start ≤ zone.stop) {r : Ref}
    (hr : r < st.objs.next) : ∃ st', st.replace zone r = some st' ∧ st'.InOrder := by
  obtain ⟨es, hmap, hsane⟩ := h
  obtain ⟨map, o⟩ := st
  subst hmap
  rcases eq_or_lt_of_le hzone with hempty | hne
  · exact ⟨_, replace_empty hempty r, es, rfl, hsane⟩
  · obtain ⟨es', o', heq, hsane', -⟩ := replace_points hsane hne hr
    exact ⟨_, heq, es', rfl, hsane'⟩

theorem State.InOrder.clear (h : st.InOrder) (zone : Zone) :
    ∃ st', st.clear zone = some st' ∧ st'.InOrder := by
  obtain ⟨es, hmap, hsane⟩ := h
  obtain ⟨map, o⟩ := st
  subst hmap
  by_cases hne : zone.Nonempty
  · obtain ⟨es', o', heq, hsane', -⟩ := clear_points hsane hne
    exact ⟨_, heq, es', rfl, hsane'⟩
  · exact ⟨_, clear_empty hne, es, rfl, hsane⟩

theorem State.InOrder.populate (h : st.InOrder) {d : Ref} (hd : d < st.objs.next)
    {upd : Int → Int → α → α} {ys : List (Entry Ref)} {st' : State α}
    (hcall : st.populate zone d upd = some (ys, st')) : st'.InOrder := by
  obtain ⟨es, hmap, hsane⟩ := h
  obtain ⟨map, o⟩ := st
  subst hmap
  by_cases hne : zone.Nonempty
  · obtain ⟨ys', es', o', heq, hpop⟩ :=
      populate_points upd hsane hne (countable_of_populate hne hcall) hd
    cases heq.symm.trans hcall
    exact ⟨es', rfl, hpop.sane⟩
  · cases (populate_empty hne d upd).symm.trans hcall
    exact ⟨es, rfl, hsane⟩

theorem State.InOrder.overlaps (h : st.InOrder) (zone : Zone) (split : Bool)
    (upd : Int → Int → α → α) :
    ∃ ys st', st.overlaps zone split upd = some (ys, st') ∧ st'.InOrder := by
  obtain ⟨es, hmap, hsane⟩ := h
  obtain ⟨map, o⟩ := st
  subst hmap
  by_cases hne : zone.Nonempty
  · cases split with
    | true =>
      obtain ⟨ys, es', o', heq, hsane', -⟩ := overlaps_points upd hsane hne
      exact ⟨ys, _, heq, es', rfl, hsane'⟩
    | false =>
      obtain ⟨pre, mid, post, rfl, heq, -⟩ := overlaps_keep hsane hne upd
      refine ⟨_, _, heq, _, rfl, hsane.ordered, ?_⟩
      rw [touch_next]
      exact hsane.known
  · exact ⟨[], _, overlaps_empty hne split upd, es, rfl, hsane⟩

theorem State.InOrder.caller (h : st.InOrder) (hnext : st.objs.next ≤ o.next) :
    (State.mk st.map o).InOrder := by
  obtain ⟨es, hmap, hsane⟩ := h
  exact ⟨es, hmap, hsane.ordered, fun e he => (hsane.known e he).trans_le hnext⟩

/-! ### Any sequence of calls -/

/-- The states that calls on non-empty zones lead to.  In between the caller may change what
    any object holds and make new objects. -/
inductive Reachable : State α → Prop
  | empty (o : Objects α) : Reachable ⟨⟨[], [], []⟩, o⟩
  | replace {st st' : State α} {zone : Zone} {r : Ref} (h : Reachable st) (hzone : zone.Nonempty)
      (hr : r < st.objs.next) (hcall : st.replace zone r = some st') : Reachable st'
  | clear {st st' : State α} {zone : Zone} (h : Reachable st) (hzone : zone.Nonempty)
      (hcall : st.clear zone = some st') : Reachable st'
  | populate {st st' : State α} {zone : Zone} {d : Ref} {upd : Int → Int → α → α}
      {ys : List (Entry Ref)} (h : Reachable st) (hzone : zone.Nonempty) (hd : d < st.objs.next)
      (hcall : st.populate zone d upd = some (ys, st')) : Reachable st'
  | overlaps {st st' : State α} {zone : Zone} {upd : Int → Int → α → α}
      {ys : List (Entry Ref)} (h : Reachable st) (hzone : zone.Nonempty)
      (hcall : st.overlaps zone true upd = some (ys, st')) : Reachable st'
  | caller {st : State α} {o : Objects α} (h : Reachable st) (hnext : st.objs.next ≤ o.next) :
      Reachable ⟨st.map, o⟩

theorem Reachable.holds {st : State α} (h : Reachable st) : st.InOrder := by
  induction h with
  | empty o => exact ⟨[], rfl, ordered_nil, by simp⟩
  | replace _ hzone hr hcall ih =>
    obtain ⟨st', heq, hin⟩ := ih.replace hzone.le hr
    cases heq.symm.trans hcall
    exact hin
  | clear _ _ hcall ih =>
    obtain ⟨st', heq, hin⟩ := ih.clear _
    cases heq.symm.trans hcall
    exact hin
  | populate _ _ hd hcall ih => exact ih.populate hd hcall
  | overlaps _ _ hcall ih =>
    obtain ⟨ys, st', heq, hin⟩ := ih.overlaps _ _ _
    cases heq.symm.trans hcall
    exact hin
  | caller _ hnext ih => exact ih.caller hnext

theorem forall_of_foldlM {S C : Type} {call : S → C → Option S} {P : C → Prop}
    (hcall : ∀ {s s' c}, call s c = some s' → P c) {calls : List C} :
    ∀ {s s' : S}, calls.foldlM call s = some s' → ∀ c ∈ calls, P c := by
  induction calls with
  | nil => simp
  | cons c calls ih =>
    intro s s' h
    rw [List.foldlM_cons] at h
    obtain ⟨s₁, hfirst, hrest⟩ := Option.bind_eq_some_iff.mp h
    exact List.forall_mem_cons.mpr ⟨hcall hfirst, ih hrest⟩

/-- The three lists are equally long, and `start[i] <= end[i] < start[i + 1]`. -/
structure Lists.Parallel (m : Lists) : Prop where
  ends_length : m.ends.length = m.starts.length
  values_length : m.values.length = m.starts.length
  nonempty : ∀ (i : Nat) (s e : Int), m.starts[i]? = some s → m.ends[i]? = some e → s ≤ e
  apart : ∀ (i : Nat) (e s : Int), m.ends[i]? = some e → m.starts[i + 1]? = some s → e < s

theorem Ordered.parallel (h : Ordered es) : (ofEntries es).Parallel := by
  refine ⟨by simp, by simp, ?_, ?_⟩
  · intro i s e hs he
    rw [ofEntries_starts, List.getElem?_map] at hs
    rw [ofEntries_ends, List.getElem?_map] at he
    obtain ⟨x, hx, rfl⟩ := Option.map_eq_some_iff.mp hs
    rw [hx] at he
    cases he
    exact h.nonempty x (List.mem_of_getElem? hx)
  · intro i e s he hs
    rw [ofEntries_ends, List.getElem?_map] at he
    rw [ofEntries_starts, List.getElem?_map] at hs
    obtain ⟨x, hx, rfl⟩ := Option.map_eq_some_iff.mp he
    obtain ⟨y, hy, rfl⟩ := Option.map_eq_some_iff.mp hs
    obtain ⟨hi, rfl⟩ := List.getElem?_eq_some_iff.mp hx
    obtain ⟨hj, rfl⟩ := List.getElem?_eq_some_iff.mp hy
    exact List.pairwise_iff_getElem.mp h.apart i (i + 1) hi hj (Nat.lt_succ_self i)

/-- Every method but `populate` acts on the points of its zone. -/
structure Pointwise (st : State α) (zone : Zone) : Prop where
  replace : ∀ r < st.objs.next, ∃ st', st.replace zone r = some st' ∧
    (∀ a, zone.Contains a → st'.map.lookup a = some r ∧ st'.value a = some (st.objs.content r)) ∧
    ∀ a, ¬ zone.Contains a → st'.value a = st.value a
  clear : ∃ st', st.clear zone = some st' ∧
    ∀ a, st'.value a = if zone.Contains a then none else st.value a
  overlaps : ∃ ys st', st.overlaps zone true (fun _ _ c => c) = some (ys, st') ∧
    (∀ a, st'.value a = st.value a) ∧ Ordered ys ∧
    (∀ y ∈ ys, ∀ a, y.lo ≤ a → a ≤ y.hi → st'.map.lookup a = some y.val) ∧
    ∀ a, (∃ y ∈ ys, y.lo ≤ a ∧ a ≤ y.hi) ↔ zone.Contains a ∧ st.value a ≠ none

/-- `populate` with what the caller does to the values: it only shows inside the zone, if the
    caller does nothing, or if no object is stored twice or is the default. -/
def Populates (st : State α) (zone : Zone) (d : Ref) : Prop :=
  ∀ upd : Int → Int → α → α, ∃ ys st',
    st.populate zone d upd = some (ys, st') ∧ Tiles zone.start zone.stop ys ∧
    (∀ y ∈ ys, ∀ a, y.lo ≤ a → a ≤ y.hi → st'.map.lookup a = some y.val ∧
      (∀ r, st.map.lookup a = some r → y.val = r ∨ st.objs.next ≤ y.val) ∧
      (st.map.lookup a = none → st.objs.next ≤ y.val)) ∧
    (Idle upd ∨ st.map.values.Nodup ∧ d ∉ st.map.values →
      (∀ a, ¬ zone.Contains a → st'.value a = st.value a) ∧
      ∀ y ∈ ys, ∀ a, y.lo ≤ a → a ≤ y.hi →
        st'.value a = some (upd y.lo (y.hi + 1) ((st.value a).getD (st.objs.content d))))

theorem State.Holds.pointwise {st : State α} (h : st.Holds es) (hzone : zone.Nonempty) :
    Pointwise st zone := by
  obtain ⟨m, o⟩ := st
  obtain ⟨hmap, hsane⟩ := h
  dsimp only at hmap hsane
  subst hmap
  have hvalue := value_ofEntries (o := o) hsane.ordered
  refine ⟨?_, ?_, ?_⟩
  · intro r hr
    obtain ⟨es', o', heq, hsane', -, hcontent, hin, hout, -⟩ := replace_points hsane hzone hr
    refine ⟨_, heq, ?_, ?_⟩
    · intro a ha
      rw [value_ofEntries hsane'.ordered, view, lookup_ofEntries hsane'.ordered, hin a ha,
        Option.map_some, hcontent r hr]
      exact ⟨rfl, rfl⟩
    · intro a ha
      rw [value_ofEntries hsane'.ordered, hvalue, hout a ha]
  · obtain ⟨es', o', heq, hsane', -, -, hview, -⟩ := clear_points hsane hzone
    refine ⟨_, heq, fun a => ?_⟩
    rw [value_ofEntries hsane'.ordered, hvalue, hview]
  · obtain ⟨ys, es', o', heq, hsane', -, hys, hmem, hcover, -, hview, -⟩ :=
      overlaps_points (fun _ _ c => c) hsane hzone
    obtain ⟨hout, hin⟩ := hview (Or.inl fun _ _ _ => rfl)
    refine ⟨ys, _, heq, fun a => ?_, hys, ?_, fun a => by rw [hvalue]; exact hcover a⟩
    · rw [value_ofEntries hsane'.ordered, hvalue]
      by_cases hyielded : ∃ y ∈ ys, y.lo ≤ a ∧ a ≤ y.hi
      · obtain ⟨y, hy, hlo, hhi⟩ := hyielded
        rw [hin y hy a hlo hhi]
        simp
      · exact hout a hyielded
    · intro y hy a hlo hhi
      rw [lookup_ofEntries hsane'.ordered, hsane'.ordered.valueAt_mem (hmem y hy) hlo hhi]

theorem State.Holds.populates_iff {st : State α} (h : st.Holds es) (hzone : zone.Nonempty) {d : Ref}
    (hd : d < st.objs.next) : Populates st zone d ↔ zone.Countable := by
  constructor
  · intro hall
    obtain ⟨ys, st', heq, -⟩ := hall fun _ _ c => c
    exact countable_of_populate hzone heq
  · intro hlen upd
    obtain ⟨m, o⟩ := st
    obtain ⟨hmap, hsane⟩ := h
    dsimp only at hmap hsane hd
    subst hmap
    have hvalue := value_ofEntries (o := o) hsane.ordered
    have hlookup := lookup_ofEntries hsane.ordered
    obtain ⟨ys, es', o', heq, hpop⟩ := populate_points upd hsane hzone hlen hd
    refine ⟨ys, _, heq, hpop.tiles, ?_, ?_⟩
    · intro y hy a hlo hhi
      rw [lookup_ofEntries hpop.sane.ordered, hlookup,
        hpop.sane.ordered.valueAt_mem (hpop.stored y hy) hlo hhi]
      exact ⟨rfl, hpop.found y hy a hlo hhi, hpop.fresh y hy a hlo hhi⟩
    · intro hcase
      refine ⟨fun a ha => ?_, fun y hy a hlo hhi => ?_⟩
      · rw [value_ofEntries hpop.sane.ordered, hvalue, hpop.outside hcase a ha]
      · rw [value_ofEntries hpop.sane.ordered, hvalue, hpop.inside hcase y hy a hlo hhi]

/-- **A range map is a partial function.** After any calls the three lists are parallel and
    sorted.  `replace`, `clear` and `overlaps` change it at the addresses of their zone and
    nowhere else, and `populate` yields a tiling of its zone exactly if the zone has a `len`. -/
theorem rangeMap_pointwise {st : State α} (h : Reachable st) :
    st.map.Parallel ∧ ∀ zone : Zone, zone.Nonempty →
      Pointwise st zone ∧ ∀ d < st.objs.next, (Populates st zone d ↔ zone.Countable) := by
  obtain ⟨es, hes⟩ := h.holds
  refine ⟨?_, fun zone hzone => ⟨hes.pointwise hzone, fun d hd => hes.populates_iff hzone hd⟩⟩
  rw [hes.1]
  exact Ordered.parallel hes.2.ordered

/-- Two ranges of one object, and a zone across both and the gap between them. -/
theorem rangeMap_pointwise_straddling :
    Pointwise (⟨⟨[0, 8], [4, 9], [0, 0]⟩, ⟨fun _ => ([7] : List Nat), 1⟩⟩ : State (List Nat))
        (.range 2 9) ∧
      Populates (⟨⟨[0, 8], [4, 9], [0, 0]⟩, ⟨fun _ => ([7] : List Nat), 1⟩⟩ : State (List Nat))
        (.range 2 9) 0 := by
  have hfirst : Reachable (⟨⟨[0], [4], [0]⟩, ⟨fun _ => [7], 1⟩⟩ : State (List Nat)) :=
    Reachable.replace (Reachable.empty _) (by decide : (Zone.range 0 5).Nonempty)
      (by decide : 0 < 1) rfl
  have hsecond : Reachable (⟨⟨[0, 8], [4, 9], [0, 0]⟩, ⟨fun _ => [7], 1⟩⟩ : State (List Nat)) :=
    Reachable.replace hfirst (by decide : (Zone.slice (some 8) (some 10)).Nonempty)
      (by decide : 0 < 1) rfl
  obtain ⟨hpoints, hpopulate⟩ := (rangeMap_pointwise hsecond).2 (.range 2 9) (by decide)
  exact ⟨hpoints, (hpopulate 0 (by decide : 0 < 1)).mpr (by decide)⟩

/-- `populate(range(0, 1 << 64))` on a new map. -/
theorem populate_raises_whole_space :
    Reachable (⟨⟨[], [], []⟩, ⟨fun _ => [], 1⟩⟩ : State (List Nat)) ∧
      (Zone.range 0 (2 ^ 64)).Nonempty ∧
      State.populate (⟨⟨[], [], []⟩, ⟨fun _ => [], 1⟩⟩ : State (List Nat)) (.range 0 (2 ^ 64)) 0
        (fun _ _ c => c) = none :=
  ⟨Reachable.empty _, by decide, populate_long (by decide) (by decide) _ _⟩

end MiniHaywire.RangeMap

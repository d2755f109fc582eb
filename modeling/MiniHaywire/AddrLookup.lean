import MiniHaywire.RangeMapCompact

/-!
# The address lookup table

The class `AddrLookup` of `utils.py`: a range map whose values are lists of
`(value, zone)` pairs.  `add` populates the zone and appends to every list there;
`remove` takes the pair out of every list of a range that overlaps the zone,
without splitting any range; `compact` drops ranges with empty lists and joins
neighbours with equal ones.

The table stands for the list of the pairs that were added and not removed.  An
address sees those of them whose zone contains it.  That alone makes `remove`
right where a range reaches out of the zone: all addresses of a range see the same
pairs, so no pair of that zone is among them.
-/

namespace MiniHaywire.RangeMap

open Intervals

/-! ### The class -/

section AddrLookup

variable {β : Type} [DecidableEq β]

/-- A range map of lists; `default` is the list in the signature of `populate`. -/
structure AddrLookup (β : Type) where
  st : State (List (β × Zone))
  default : Ref

def AddrLookup.init : AddrLookup β := ⟨⟨⟨[], [], []⟩, ⟨fun _ => [], 1⟩⟩, 0⟩

def AddrLookup.add (m : AddrLookup β) (zone : Zone) (value : β) : Option (AddrLookup β) := do
  let (_, st) ← m.st.populate zone m.default fun _ _ values => values ++ [(value, zone)]
  some { m with st := st }

/-- `remove`; `list.remove` raises if there is no such item, and that is ignored. -/
def AddrLookup.remove (m : AddrLookup β) (zone : Zone) (value : β) : Option (AddrLookup β) := do
  let (_, st) ← m.st.overlaps zone false fun _ _ values => values.erase (value, zone)
  some { m with st := st }

/-- `compact` with its default arguments. -/
def AddrLookup.compact (m : AddrLookup β) : AddrLookup β :=
  { m with st := m.st.compact (fun a b => a == b) fun a => a.isEmpty }

def AddrLookup.lookupAll (m : AddrLookup β) (addr : Int) : List (β × Zone) :=
  (m.st.value addr).getD []

def AddrLookup.lookup (m : AddrLookup β) (addr : Int) (default : β) : β × Zone :=
  match m.st.value addr with
  | some (x :: _) => x
  | _ => (default, .range 0 (2 ^ 64))

inductive AddrCall (β : Type) where
  | add (zone : Zone) (value : β)
  | remove (zone : Zone) (value : β)
  | compact
deriving DecidableEq, Repr

def AddrCall.Proper : AddrCall β → Prop
  | .add zone _ => zone.Nonempty
  | .remove zone _ => zone.Nonempty
  | .compact => True

instance decidableProper (c : AddrCall β) : Decidable c.Proper :=
  match c with
  | .add zone _ => inferInstanceAs (Decidable zone.Nonempty)
  | .remove zone _ => inferInstanceAs (Decidable zone.Nonempty)
  | .compact => inferInstanceAs (Decidable True)

/-- The zone of an addition has a `len`. -/
def AddrCall.Countable : AddrCall β → Prop
  | .add zone _ => zone.Countable
  | .remove _ _ => True
  | .compact => True

instance decidableAddCountable (c : AddrCall β) : Decidable c.Countable :=
  match c with
  | .add zone _ => inferInstanceAs (Decidable zone.Countable)
  | .remove _ _ => inferInstanceAs (Decidable True)
  | .compact => inferInstanceAs (Decidable True)

def AddrLookup.call (m : AddrLookup β) : AddrCall β → Option (AddrLookup β)
  | .add zone value => m.add zone value
  | .remove zone value => m.remove zone value
  | .compact => some m.compact

def AddrLookup.run (calls : List (AddrCall β)) : Option (AddrLookup β) :=
  calls.foldlM AddrLookup.call AddrLookup.init

/-! ### The multimap it stands for -/

/-- The pairs added and not removed, in the order of insertion. -/
def AddrCall.apply (pairs : List (β × Zone)) : AddrCall β → List (β × Zone)
  | .add zone value => pairs ++ [(value, zone)]
  | .remove zone value => pairs.erase (value, zone)
  | .compact => pairs

def pairsOf (calls : List (AddrCall β)) : List (β × Zone) := calls.foldl AddrCall.apply []

def seenAt (pairs : List (β × Zone)) (a : Int) : List (β × Zone) :=
  pairs.filter fun x => x.2.Contains a

theorem seenAt_erase (pairs : List (β × Zone)) (x : β × Zone) (a : Int) :
    seenAt (pairs.erase x) a =
      if x.2.Contains a then (seenAt pairs a).erase x else seenAt pairs a := by
  induction pairs with
  | nil => simp [seenAt]
  | cons y pairs ih =>
    unfold seenAt at ih ⊢
    by_cases hxy : y = x
    · subst hxy
      by_cases hy : y.2.Contains a <;> simp [hy]
    · rw [List.erase_cons_tail (by simpa using hxy)]
      by_cases hy : y.2.Contains a
      · rw [List.filter_cons_of_pos (by simpa using hy),
          List.filter_cons_of_pos (by simpa using hy),
          ih, List.erase_cons_tail (by simpa using hxy)]
        split <;> rfl
      · rw [List.filter_cons_of_neg (by simpa using hy),
          List.filter_cons_of_neg (by simpa using hy), ih]

structure AddrLookup.Stands (m : AddrLookup β) (pairs : List (β × Zone))
    (es : List (Entry Ref)) : Prop where
  holds : m.st.Holds es
  unshared : Unshared es
  default_lt : m.default < m.st.objs.next
  default_unused : m.default ∉ es.map Entry.val
  default_empty : m.st.objs.content m.default = []
  seen : ∀ a, (view m.st.objs es a).getD [] = seenAt pairs a

omit [DecidableEq β] in
theorem AddrLookup.stands_init : (AddrLookup.init : AddrLookup β).Stands [] [] :=
  ⟨⟨rfl, ordered_nil, by simp⟩, List.nodup_nil, Nat.zero_lt_one, by simp, rfl, fun _ => rfl⟩

omit [DecidableEq β] in
theorem AddrLookup.Stands.add {m : AddrLookup β} {pairs : List (β × Zone)} {es : List (Entry Ref)}
    (h : m.Stands pairs es) {zone : Zone} (hzone : zone.Nonempty) (hlen : zone.Countable)
    (value : β) :
    ∃ m' es', m.add zone value = some m' ∧ m'.Stands (pairs ++ [(value, zone)]) es' := by
  obtain ⟨⟨map, o⟩, d⟩ := m
  obtain ⟨⟨hmap, hsane⟩, hun, hlt, hunused, hempty, hseen⟩ := h
  dsimp only at hmap hsane hlt hempty hseen
  subst hmap
  obtain ⟨ys, es', o', heq, hpop⟩ :=
    populate_points (fun _ _ values => values ++ [(value, zone)]) hsane hzone hlen hlt
  have hharm : Harmless (fun _ _ values => values ++ [(value, zone)]) d es := Or.inr ⟨hun, hunused⟩
  refine ⟨⟨⟨ofEntries es', o'⟩, d⟩, es', ?_, ⟨rfl, hpop.sane⟩, hpop.unshared hun,
    hlt.trans_le hpop.next_le, ?_, ?_, ?_⟩
  · unfold AddrLookup.add
    rw [heq]
    rfl
  · exact fun hmem => hunused (mem_of_origin hpop.origin hlt hmem)
  · exact (hpop.kept d hlt (Or.inr hunused)).trans hempty
  · intro a
    have hfilter : seenAt (pairs ++ [(value, zone)]) a =
        if zone.Contains a then seenAt pairs a ++ [(value, zone)] else seenAt pairs a := by
      unfold seenAt
      rw [List.filter_append]
      by_cases ha : zone.Contains a <;> simp [ha]
    rw [hfilter]
    by_cases ha : zone.Contains a
    · obtain ⟨y, hy, hlo, hhi⟩ := hpop.tiles.exists_mem a ha.1 ha.2
      rw [if_pos ha, hpop.inside hharm y hy a hlo hhi, hempty, ← hseen]
      rfl
    · rw [if_neg ha, hpop.outside hharm a ha, hseen]

theorem AddrLookup.Stands.remove {m : AddrLookup β} {pairs : List (β × Zone)}
    {es : List (Entry Ref)} (h : m.Stands pairs es) {zone : Zone} (hzone : zone.Nonempty)
    (value : β) :
    ∃ m' es', m.remove zone value = some m' ∧ m'.Stands (pairs.erase (value, zone)) es' := by
  obtain ⟨⟨map, o⟩, d⟩ := m
  obtain ⟨⟨hmap, hsane⟩, hun, hlt, hunused, hempty, hseen⟩ := h
  dsimp only at hmap hsane hlt hempty hseen
  subst hmap
  obtain ⟨pre, mid, post, rfl, heq, hpre, hpost⟩ :=
    overlaps_keep hsane hzone fun _ _ values => values.erase (value, zone)
  set upd : Int → Int → List (β × Zone) → List (β × Zone) :=
    fun _ _ values => values.erase (value, zone) with hupd
  have hnext := touch_next upd mid o
  have hmidUn : Unshared mid := (unshared_append.mp (unshared_append.mp hun).2.1).1
  refine ⟨⟨⟨ofEntries (pre ++ (mid ++ post)), touch upd mid o⟩, d⟩, pre ++ (mid ++ post), ?_,
    ⟨rfl, hsane.ordered, fun e he => by rw [hnext]; exact hsane.known e he⟩, hun,
    by rw [hnext]; exact hlt, hunused, ?_, ?_⟩
  · unfold AddrLookup.remove
    rw [heq]
    rfl
  · refine (touch_content upd mid o d (Or.inr fun hmem => hunused ?_)).trans hempty
    simp only [List.map_append, List.mem_append]
    exact Or.inr (Or.inl hmem)
  · intro a
    have hpoint := hseen a
    rw [seenAt_erase]
    dsimp only
    cases hv : valueAt (pre ++ (mid ++ post)) a with
    | none =>
      rw [view, hv] at hpoint ⊢
      have hnil : seenAt pairs a = [] := hpoint.symm
      rw [hnil]
      simp
    | some r =>
      obtain ⟨e, he, hlo, hhi, rfl⟩ := mem_of_valueAt hv
      rw [view, hv, Option.map_some, Option.getD_some] at hpoint ⊢
      -- a pair that the address sees has a zone that contains it
      have hsees : ¬ zone.Contains a → (value, zone) ∉ o.content e.val := by
        intro ha hmem
        rw [hpoint, seenAt, List.mem_filter] at hmem
        exact ha (by simpa using hmem.2)
      by_cases hmem : e ∈ mid
      · rw [touch_mem upd hmidUn o e hmem, hupd, hpoint]
        by_cases ha : zone.Contains a
        · rw [if_pos ha]
        · rw [if_neg ha]
          exact List.erase_of_not_mem (hpoint ▸ hsees ha)
      · have hother : e.val ∉ mid.map Entry.val := by
          intro hval
          obtain ⟨f, hf, heq⟩ := List.mem_map.mp hval
          have hsame : f = e := List.inj_on_of_nodup_map hun (by simp [hf]) he heq
          exact hmem (hsame ▸ hf)
        have hout : ¬ zone.Contains a := by
          rintro ⟨hstart, hstop⟩
          simp only [List.mem_append] at he
          rcases he with he | he | he
          · have hlt := hpre e he
            omega
          · exact hmem he
          · have hle := hpost e he
            omega
        rw [touch_content upd mid o e.val (Or.inr hother), if_neg hout, hpoint]

theorem AddrLookup.Stands.compact {m : AddrLookup β} {pairs : List (β × Zone)}
    {es : List (Entry Ref)} (h : m.Stands pairs es) : ∃ es', m.compact.Stands pairs es' := by
  obtain ⟨hholds, hun, hlt, hunused, hempty, hseen⟩ := h
  obtain ⟨es', hholds', hcompacts⟩ := hholds.compact (fun a b => a == b) fun a => a.isEmpty
  have hvals : (es'.map Entry.val).Sublist (es.map Entry.val) := by simpa using hcompacts.values
  refine ⟨es', hholds', hun.sublist hvals, hlt, fun hmem => hunused (hvals.mem hmem), hempty, ?_⟩
  intro a
  rw [← hseen a]
  change ((valueAt es' a).map m.st.objs.content).getD [] =
    ((valueAt es a).map m.st.objs.content).getD []
  by_cases hkept : ∃ r, valueAt es a = some r ∧ (m.st.objs.content r).isEmpty = false
  · obtain ⟨r, hr, hne⟩ := hkept
    obtain ⟨r', hr', hsame⟩ := hcompacts.kept_value hr hne
    have hcontent : m.st.objs.content r' = m.st.objs.content r := by
      rcases hsame with rfl | hsame
      · rfl
      · simpa using hsame
    simp [hr, hr', hcontent]
  · have hnone : valueAt es' a = none := by
      refine Option.eq_none_iff_forall_ne_some.mpr fun r' hr' => ?_
      exact hkept (hcompacts.value_origin hholds.2.ordered hr')
    rw [hnone]
    cases hr : valueAt es a with
    | none => rfl
    | some r =>
      have hnil : m.st.objs.content r = [] := by
        by_contra hne
        exact hkept ⟨r, hr, by simpa using hne⟩
      simp [hnil]

theorem AddrLookup.Stands.call {m : AddrLookup β} {pairs : List (β × Zone)}
    {es : List (Entry Ref)} (h : m.Stands pairs es) {c : AddrCall β} (hc : c.Proper)
    (hlen : c.Countable) :
    ∃ m' es', m.call c = some m' ∧ m'.Stands (c.apply pairs) es' := by
  cases c with
  | add zone value => exact h.add hc hlen value
  | remove zone value => exact h.remove hc value
  | compact =>
    obtain ⟨es', hstands⟩ := h.compact
    exact ⟨_, es', rfl, hstands⟩

theorem AddrLookup.Stands.calls {calls : List (AddrCall β)} :
    ∀ {m : AddrLookup β} {pairs : List (β × Zone)} {es : List (Entry Ref)}, m.Stands pairs es →
      (∀ c ∈ calls, c.Proper) → (∀ c ∈ calls, c.Countable) →
      ∃ m' es', calls.foldlM AddrLookup.call m = some m' ∧
        m'.Stands (calls.foldl AddrCall.apply pairs) es' := by
  induction calls with
  | nil =>
    intro m pairs es h _ _
    exact ⟨m, es, rfl, h⟩
  | cons c calls ih =>
    intro m pairs es h hcalls hlens
    obtain ⟨m₁, es₁, hcall, h₁⟩ := h.call (hcalls c (by simp)) (hlens c (by simp))
    obtain ⟨m', es', hrest, h'⟩ :=
      ih h₁ (fun d hd => hcalls d (by simp [hd])) fun d hd => hlens d (by simp [hd])
    refine ⟨m', es', ?_, h'⟩
    rw [List.foldlM_cons, hcall]
    exact hrest

omit [DecidableEq β] in
theorem AddrLookup.Stands.lookupAll_eq {m : AddrLookup β} {pairs : List (β × Zone)}
    {es : List (Entry Ref)} (h : m.Stands pairs es) (a : Int) : m.lookupAll a = seenAt pairs a := by
  have hvalue : m.st.value a = view m.st.objs es a := by
    obtain ⟨⟨map, o⟩, d⟩ := m
    obtain ⟨hmap, hsane⟩ := h.holds
    dsimp only at hmap hsane ⊢
    rw [hmap, value_ofEntries hsane.ordered]
  rw [AddrLookup.lookupAll, hvalue]
  exact h.seen a

omit [DecidableEq β] in
theorem AddrLookup.countable_of_add {m m' : AddrLookup β} {zone : Zone} (hzone : zone.Nonempty)
    {value : β} (h : m.add zone value = some m') : zone.Countable := by
  obtain ⟨r, hpopulate, -⟩ := Option.bind_eq_some_iff.mp h
  exact countable_of_populate hzone hpopulate

theorem AddrLookup.countable_of_call {m m' : AddrLookup β} {c : AddrCall β}
    (h : m.call c = some m') : c.Proper → c.Countable := by
  intro hc
  cases c with
  | add zone value => exact AddrLookup.countable_of_add hc h
  | remove zone value => exact trivial
  | compact => exact trivial

/-- **`AddrLookup` is a multimap.** Whatever was added, removed and compacted, an address sees the
    pairs that were added and not removed and whose zone contains it.  The calls return exactly if
    no addition is to a zone that is too long for `len`. -/
theorem addrLookup_multimap {calls : List (AddrCall β)} (hcalls : ∀ c ∈ calls, c.Proper) :
    (∃ m, AddrLookup.run calls = some m ∧ ∀ a,
      m.lookupAll a = seenAt (pairsOf calls) a ∧
      ∀ default, m.lookup a default =
        (seenAt (pairsOf calls) a).head?.getD (default, .range 0 (2 ^ 64))) ↔
    ∀ c ∈ calls, c.Countable := by
  constructor
  · rintro ⟨m, hrun, -⟩ c hc
    exact forall_of_foldlM AddrLookup.countable_of_call hrun c hc (hcalls c hc)
  · intro hlens
    obtain ⟨m, es, hrun, hstands⟩ := AddrLookup.stands_init.calls hcalls hlens
    refine ⟨m, hrun, fun a => ?_⟩
    have hseen : m.lookupAll a = seenAt (pairsOf calls) a := hstands.lookupAll_eq a
    refine ⟨hseen, fun default => ?_⟩
    rw [← hseen]
    unfold AddrLookup.lookup AddrLookup.lookupAll
    cases m.st.value a with
    | none => rfl
    | some values => cases values <;> rfl

end AddrLookup

/-- A nested zone, a duplicate, a removal of what was never added, and a merge. -/
def nestedCalls : List (AddrCall Nat) :=
  [.add (.range 0 10) 0, .add (.range 2 5) 1, .add (.range 0 10) 0, .remove (.range 3 4) 1,
    .remove (.range 0 10) 0, .compact]

theorem addrLookup_multimap_nested :
    ∃ m, AddrLookup.run nestedCalls = some m ∧
      m.lookupAll 3 = [(1, .range 2 5), (0, .range 0 10)] :=
  have hproper : ∀ c ∈ nestedCalls, c.Proper := by decide
  ((addrLookup_multimap hproper).mpr (by decide)).imp fun _ h => ⟨h.1, (h.2 3).1⟩

/-- `add(range(0, 1 << 64), value)`, the zone that `lookup` gives for an unknown address. -/
theorem addrLookup_raises_whole_space :
    (∀ c ∈ [AddrCall.add (.range 0 (2 ^ 64)) 0], c.Proper) ∧
      AddrLookup.run [AddrCall.add (.range 0 (2 ^ 64)) 0] = none := by
  refine ⟨by decide, ?_⟩
  have hlong : (AddrLookup.init : AddrLookup Nat).st.populate (.range 0 (2 ^ 64)) 0
      (fun _ _ values => values ++ [(0, .range 0 (2 ^ 64))]) = none :=
    populate_long (by decide) (by decide) _ _
  simp only [AddrLookup.run, List.foldlM_cons, AddrLookup.call, AddrLookup.add]
  rw [show (AddrLookup.init : AddrLookup Nat).default = 0 from rfl, hlong]
  rfl

end MiniHaywire.RangeMap

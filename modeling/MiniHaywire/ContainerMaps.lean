import MiniHaywire.RangeMapPoints
import Mathlib.Data.Finset.Basic

/-!
# Range maps of sets and of dictionaries

The classes `SetRangeMap` and `DictRangeMap` of `utils.py`.  Their values are
mutable containers, one for a whole stored range.  Both classes do four things: they
assign a new container to a zone, clear a zone, change the containers of a zone and
make them where there are none, and change the containers of a zone that are there.
Address by address that is what the same operations do to one container for each
address, which is empty in the beginning.
-/

namespace MiniHaywire.RangeMap

open Intervals

/-! ### Operations on containers -/

section Containers

variable {α : Type} (empty : α)

def State.assign (st : State α) (zone : Zone) (c : α) : Option (State α) :=
  State.replace ⟨st.map, (st.objs.alloc c).2⟩ zone (st.objs.alloc c).1

/-- A loop over `populate` with an empty container. -/
def State.fill (st : State α) (zone : Zone) (f : α → α) : Option (State α) :=
  (State.populate ⟨st.map, (st.objs.alloc empty).2⟩ zone (st.objs.alloc empty).1
    fun _ _ c => f c).map Prod.snd

/-- A loop over `overlaps` with splitting. -/
def State.change (st : State α) (zone : Zone) (f : α → α) : Option (State α) :=
  (st.overlaps zone true fun _ _ c => f c).map Prod.snd

def State.container (st : State α) (a : Int) : α := (st.value a).getD empty

def State.Stands (st : State α) (f : Int → α) : Prop :=
  ∃ es, st.Holds es ∧ Unshared es ∧ ∀ a, (view st.objs es a).getD empty = f a

variable {empty} {st : State α} {f : Int → α} {zone : Zone}

theorem State.Stands.container (h : st.Stands empty f) (a : Int) : st.container empty a = f a := by
  obtain ⟨m, o⟩ := st
  obtain ⟨es, ⟨hmap, hsane⟩, -, hview⟩ := h
  dsimp only at hmap hsane hview
  rw [State.container, hmap, value_ofEntries hsane.ordered, hview]

theorem stands_init (o : Objects α) : State.Stands empty ⟨⟨[], [], []⟩, o⟩ fun _ => empty :=
  ⟨[], ⟨rfl, ordered_nil, by simp⟩, List.nodup_nil, fun _ => rfl⟩

theorem Sane.alloc {o : Objects α} {es : List (Entry Ref)} (h : Sane o es) (c : α) :
    Sane (o.alloc c).2 es ∧ (∀ a, view (o.alloc c).2 es a = view o es a) ∧
      (o.alloc c).2.content o.next = c := by
  refine ⟨⟨h.ordered, fun e he => Nat.lt_succ_of_lt (h.known e he)⟩, fun a => ?_,
    Function.update_self ..⟩
  exact view_congr (fun e he => Function.update_of_ne (Nat.ne_of_lt (h.known e he)) _ _) a

theorem State.Stands.assign (h : st.Stands empty f) (hzone : zone.Nonempty) (c : α) :
    ∃ st', st.assign zone c = some st' ∧
      st'.Stands empty fun a => if zone.Contains a then c else f a := by
  obtain ⟨m, o⟩ := st
  obtain ⟨es, ⟨hmap, hsane⟩, hun, hview⟩ := h
  dsimp only at hmap hsane hview
  subst hmap
  obtain ⟨hsane₁, hview₁, hcontent⟩ := hsane.alloc c
  obtain ⟨es', o', heq, hsane', -, hkept, hin, hout, -, hun'⟩ :=
    replace_points hsane₁ hzone (Nat.lt_succ_self o.next)
  refine ⟨_, heq, es', ⟨rfl, hsane'⟩, hun' hun hsane.next_fresh, fun a => ?_⟩
  dsimp only
  by_cases ha : zone.Contains a
  · rw [if_pos ha, view, hin a ha, Option.map_some, hkept o.next (Nat.lt_succ_self _), hcontent]
    rfl
  · rw [if_neg ha, hout a ha, hview₁, hview]

theorem State.Stands.clear (h : st.Stands empty f) (hzone : zone.Nonempty) :
    ∃ st', st.clear zone = some st' ∧
      st'.Stands empty fun a => if zone.Contains a then empty else f a := by
  obtain ⟨m, o⟩ := st
  obtain ⟨es, ⟨hmap, hsane⟩, hun, hview⟩ := h
  dsimp only at hmap hsane hview
  subst hmap
  obtain ⟨es', o', heq, hsane', -, -, hview', -, hun'⟩ := clear_points hsane hzone
  refine ⟨_, heq, es', ⟨rfl, hsane'⟩, hun' hun, fun a => ?_⟩
  dsimp only
  rw [hview', ← hview]
  split <;> rfl

theorem State.Stands.fill (h : st.Stands empty f) (hzone : zone.Nonempty) (hlen : zone.Countable)
    (g : α → α) :
    ∃ st', st.fill empty zone g = some st' ∧
      st'.Stands empty fun a => if zone.Contains a then g (f a) else f a := by
  obtain ⟨m, o⟩ := st
  obtain ⟨es, ⟨hmap, hsane⟩, hun, hview⟩ := h
  dsimp only at hmap hsane hview
  subst hmap
  obtain ⟨hsane₁, hview₁, hcontent⟩ := hsane.alloc empty
  obtain ⟨ys, es', o', heq, hpop⟩ :=
    populate_points (fun _ _ c => g c) hsane₁ hzone hlen (Nat.lt_succ_self o.next)
  have hharm : Harmless (fun _ _ c => g c) o.next es := Or.inr ⟨hun, hsane.next_fresh⟩
  refine ⟨⟨ofEntries es', o'⟩, ?_, es', ⟨rfl, hpop.sane⟩, hpop.unshared hun, fun a => ?_⟩
  · unfold State.fill
    exact Option.map_eq_some_iff.mpr ⟨_, heq, rfl⟩
  · dsimp only
    by_cases ha : zone.Contains a
    · obtain ⟨y, hy, hlo, hhi⟩ := hpop.tiles.exists_mem a ha.1 ha.2
      rw [if_pos ha, hpop.inside hharm y hy a hlo hhi, hview₁, hcontent, hview]
      rfl
    · rw [if_neg ha, hpop.outside hharm a ha, hview₁, hview]

theorem countable_of_fill (hzone : zone.Nonempty) {g : α → α} {st' : State α}
    (h : st.fill empty zone g = some st') : zone.Countable := by
  obtain ⟨r, hpopulate, -⟩ := Option.map_eq_some_iff.mp h
  exact countable_of_populate hzone hpopulate

/-- A change that leaves an empty container empty need not be made where there is none. -/
theorem State.Stands.change (h : st.Stands empty f) (hzone : zone.Nonempty) {g : α → α}
    (hg : g empty = empty) :
    ∃ st', st.change zone g = some st' ∧
      st'.Stands empty fun a => if zone.Contains a then g (f a) else f a := by
  obtain ⟨m, o⟩ := st
  obtain ⟨es, ⟨hmap, hsane⟩, hun, hview⟩ := h
  dsimp only at hmap hsane hview
  subst hmap
  obtain ⟨ys, es', o', heq, hsane', -, -, -, hcover, -, hpoints, -, hun'⟩ :=
    overlaps_points (fun _ _ c => g c) hsane hzone
  obtain ⟨hout, hin⟩ := hpoints (Or.inr hun)
  refine ⟨⟨ofEntries es', o'⟩, ?_, es', ⟨rfl, hsane'⟩, hun' hun, fun a => ?_⟩
  · unfold State.change
    exact Option.map_eq_some_iff.mpr ⟨_, heq, rfl⟩
  · dsimp only
    rw [← hview]
    by_cases hyielded : ∃ y ∈ ys, y.lo ≤ a ∧ a ≤ y.hi
    · obtain ⟨ha, hsome⟩ := (hcover a).mp hyielded
      obtain ⟨y, hy, hlo, hhi⟩ := hyielded
      rw [if_pos ha, hin y hy a hlo hhi]
      cases hv : view o es a with
      | none => exact absurd hv hsome
      | some c => rfl
    · rw [hout a hyielded]
      by_cases ha : zone.Contains a
      · have hnone : view o es a = none := by
          by_contra hsome
          exact hyielded ((hcover a).mpr ⟨ha, hsome⟩)
        rw [if_pos ha, hnone]
        exact hg.symm
      · rw [if_neg ha]

end Containers

/-! ### Sets -/

section Sets

variable {κ : Type} [DecidableEq κ]

def SetRangeMap.add (st : State (Finset κ)) (zone : Zone) (key : κ) :
    Option (State (Finset κ)) :=
  st.fill ∅ zone fun values => insert key values

def SetRangeMap.discard (st : State (Finset κ)) (zone : Zone) (key : κ) :
    Option (State (Finset κ)) :=
  st.change zone fun values => if values = ∅ then values else values.erase key

def SetRangeMap.setItem (st : State (Finset κ)) (zone : Zone) (value : Finset κ) :
    Option (State (Finset κ)) :=
  st.assign zone value

def SetRangeMap.delItem (st : State (Finset κ)) (zone : Zone) : Option (State (Finset κ)) :=
  st.clear zone

def SetRangeMap.getItem (st : State (Finset κ)) (addr : Int) : Finset κ := st.container ∅ addr

inductive SetCall (κ : Type) where
  | add (zone : Zone) (key : κ)
  | discard (zone : Zone) (key : κ)
  | setItem (zone : Zone) (value : Finset κ)
  | delItem (zone : Zone)
deriving DecidableEq

def SetCall.zone : SetCall κ → Zone
  | .add zone _ => zone
  | .discard zone _ => zone
  | .setItem zone _ => zone
  | .delItem zone => zone

def SetCall.Countable : SetCall κ → Prop
  | .add zone _ => zone.Countable
  | _ => True

instance decidableSetCountable (c : SetCall κ) : Decidable c.Countable :=
  match c with
  | .add zone _ => inferInstanceAs (Decidable zone.Countable)
  | .discard _ _ => inferInstanceAs (Decidable True)
  | .setItem _ _ => inferInstanceAs (Decidable True)
  | .delItem _ => inferInstanceAs (Decidable True)

def SetRangeMap.call (st : State (Finset κ)) : SetCall κ → Option (State (Finset κ))
  | .add zone key => SetRangeMap.add st zone key
  | .discard zone key => SetRangeMap.discard st zone key
  | .setItem zone value => SetRangeMap.setItem st zone value
  | .delItem zone => SetRangeMap.delItem st zone

def SetCall.onSet (values : Finset κ) : SetCall κ → Finset κ
  | .add _ key => insert key values
  | .discard _ key => values.erase key
  | .setItem _ value => value
  | .delItem _ => ∅

theorem SetRangeMap.call_stands {st : State (Finset κ)} {f : Int → Finset κ}
    (h : st.Stands ∅ f) {c : SetCall κ} (hc : c.zone.Nonempty) (hlen : c.Countable) :
    ∃ st', SetRangeMap.call st c = some st' ∧
      st'.Stands ∅ fun a => if c.zone.Contains a then c.onSet (f a) else f a := by
  cases c with
  | add zone key => exact h.fill hc hlen _
  | discard zone key =>
    have herase : (fun values : Finset κ => if values = ∅ then values else values.erase key) =
        fun values => values.erase key := by
      funext values
      split
      · next hempty => rw [hempty, Finset.erase_empty]
      · rfl
    have hchange := h.change (g := fun values => values.erase key) hc (Finset.erase_empty key)
    rw [SetRangeMap.call, SetRangeMap.discard, herase]
    exact hchange
  | setItem zone value => exact h.assign hc value
  | delItem zone => exact h.clear hc

theorem SetRangeMap.countable_of_call {st st' : State (Finset κ)} {c : SetCall κ}
    (h : SetRangeMap.call st c = some st') : c.zone.Nonempty → c.Countable := by
  intro hc
  cases c with
  | add zone key => exact countable_of_fill hc h
  | _ => exact trivial

end Sets

/-! ### Dictionaries -/

section Dicts

variable {κ ν : Type} [DecidableEq κ]

abbrev Dict (κ ν : Type) := List (κ × ν)

def Dict.set (key : κ) (value : ν) : Dict κ ν → Dict κ ν
  | [] => [(key, value)]
  | (k, v) :: items => if k = key then (k, value) :: items else (k, v) :: Dict.set key value items

def Dict.pop (key : κ) (values : Dict κ ν) : Dict κ ν := values.filter fun item => item.1 ≠ key

def Dict.get (key : κ) (values : Dict κ ν) : Option ν :=
  (values.find? fun item => item.1 = key).map Prod.snd

/-- `__setitem__` for a zone. -/
def DictRangeMap.setZone (st : State (Dict κ ν)) (zone : Zone) (value : Dict κ ν) :
    Option (State (Dict κ ν)) :=
  st.assign zone value

/-- `__setitem__` for a zone and a key. -/
def DictRangeMap.setKey (st : State (Dict κ ν)) (zone : Zone) (key : κ) (value : ν) :
    Option (State (Dict κ ν)) :=
  st.fill [] zone fun values => Dict.set key value values

/-- `__delitem__` for a zone. -/
def DictRangeMap.delZone (st : State (Dict κ ν)) (zone : Zone) : Option (State (Dict κ ν)) :=
  st.clear zone

/-- `__delitem__` for a zone and a key. -/
def DictRangeMap.delKey (st : State (Dict κ ν)) (zone : Zone) (key : κ) :
    Option (State (Dict κ ν)) :=
  st.change zone fun values => Dict.pop key values

/-- `__getitem__` for an address. -/
def DictRangeMap.getItem (st : State (Dict κ ν)) (addr : Int) : Dict κ ν := st.container [] addr

/-- `__getitem__` for an address and a key. -/
def DictRangeMap.getKey (st : State (Dict κ ν)) (addr : Int) (key : κ) : Option ν :=
  match st.value addr with
  | some values => if values.isEmpty then none else Dict.get key values
  | none => none

inductive DictCall (κ ν : Type) where
  | setZone (zone : Zone) (value : Dict κ ν)
  | setKey (zone : Zone) (key : κ) (value : ν)
  | delZone (zone : Zone)
  | delKey (zone : Zone) (key : κ)
deriving DecidableEq

def DictCall.zone : DictCall κ ν → Zone
  | .setZone zone _ => zone
  | .setKey zone _ _ => zone
  | .delZone zone => zone
  | .delKey zone _ => zone

/-- Where a key is set, the zone has a `len`. -/
def DictCall.Countable : DictCall κ ν → Prop
  | .setKey zone _ _ => zone.Countable
  | _ => True

instance decidableDictCountable (c : DictCall κ ν) : Decidable c.Countable :=
  match c with
  | .setZone _ _ => inferInstanceAs (Decidable True)
  | .setKey zone _ _ => inferInstanceAs (Decidable zone.Countable)
  | .delZone _ => inferInstanceAs (Decidable True)
  | .delKey _ _ => inferInstanceAs (Decidable True)

def DictRangeMap.call (st : State (Dict κ ν)) : DictCall κ ν → Option (State (Dict κ ν))
  | .setZone zone value => DictRangeMap.setZone st zone value
  | .setKey zone key value => DictRangeMap.setKey st zone key value
  | .delZone zone => DictRangeMap.delZone st zone
  | .delKey zone key => DictRangeMap.delKey st zone key

def DictCall.onDict (values : Dict κ ν) : DictCall κ ν → Dict κ ν
  | .setZone _ value => value
  | .setKey _ key value => Dict.set key value values
  | .delZone _ => []
  | .delKey _ key => Dict.pop key values

theorem DictRangeMap.call_stands {st : State (Dict κ ν)} {f : Int → Dict κ ν}
    (h : st.Stands [] f) {c : DictCall κ ν} (hc : c.zone.Nonempty) (hlen : c.Countable) :
    ∃ st', DictRangeMap.call st c = some st' ∧
      st'.Stands [] fun a => if c.zone.Contains a then c.onDict (f a) else f a := by
  cases c with
  | setZone zone value => exact h.assign hc value
  | setKey zone key value => exact h.fill hc hlen _
  | delZone zone => exact h.clear hc
  | delKey zone key => exact h.change hc rfl

theorem DictRangeMap.countable_of_call {st st' : State (Dict κ ν)} {c : DictCall κ ν}
    (h : DictRangeMap.call st c = some st') : c.zone.Nonempty → c.Countable := by
  intro hc
  cases c with
  | setKey zone key value => exact countable_of_fill hc h
  | _ => exact trivial

end Dicts

/-! ### Runs -/

section Runs

variable {α C : Type} {empty : α} {call : State α → C → Option (State α)} {zone : C → Zone}
  {apply : α → C → α}

/-- One container for each address, after the calls. -/
def pointwise (zone : C → Zone) (apply : α → C → α) (init : α) (calls : List C) (a : Int) : α :=
  calls.foldl (fun c call => if (zone call).Contains a then apply c call else c) init

theorem foldlM_stands {P : C → Prop}
    (hcall : ∀ {st : State α} {f : Int → α}, st.Stands empty f → ∀ {c : C}, (zone c).Nonempty →
      P c → ∃ st', call st c = some st' ∧
        st'.Stands empty fun a => if (zone c).Contains a then apply (f a) c else f a)
    {calls : List C} : ∀ {st : State α} {f : Int → α}, st.Stands empty f →
      (∀ c ∈ calls, (zone c).Nonempty) → (∀ c ∈ calls, P c) →
      ∃ st', calls.foldlM call st = some st' ∧
        st'.Stands empty fun a => pointwise zone apply (f a) calls a := by
  induction calls with
  | nil =>
    intro st f h _ _
    exact ⟨st, rfl, h⟩
  | cons c calls ih =>
    intro st f h hzones hlens
    obtain ⟨st₁, heq, h₁⟩ := hcall h (hzones c (by simp)) (hlens c (by simp))
    obtain ⟨st', hrest, h'⟩ :=
      ih h₁ (fun d hd => hzones d (by simp [hd])) fun d hd => hlens d (by simp [hd])
    refine ⟨st', ?_, h'⟩
    rw [List.foldlM_cons, heq]
    exact hrest

end Runs

section Agreement

variable {κ ν : Type} [DecidableEq κ]

def SetRangeMap.run (o : Objects (Finset κ)) (calls : List (SetCall κ)) :
    Option (State (Finset κ)) :=
  calls.foldlM SetRangeMap.call ⟨⟨[], [], []⟩, o⟩

def DictRangeMap.run (o : Objects (Dict κ ν)) (calls : List (DictCall κ ν)) :
    Option (State (Dict κ ν)) :=
  calls.foldlM DictRangeMap.call ⟨⟨[], [], []⟩, o⟩

/-- **Maps of sets and of dictionaries** agree, after any calls, with one set or one dictionary
    for each address, and a call on a zone does not show outside of it.  The calls return exactly
    if none of those that make containers is on a zone that is too long for `len`. -/
theorem container_maps_pointwise :
    (∀ (o : Objects (Finset κ)) (calls : List (SetCall κ)), (∀ c ∈ calls, c.zone.Nonempty) →
      ((∃ st, SetRangeMap.run o calls = some st ∧
        (∀ a, SetRangeMap.getItem st a = pointwise SetCall.zone SetCall.onSet ∅ calls a) ∧
        ∀ c : SetCall κ, c.zone.Nonempty → c.Countable → ∃ st', SetRangeMap.call st c = some st' ∧
          ∀ a, ¬ c.zone.Contains a → SetRangeMap.getItem st' a = SetRangeMap.getItem st a) ↔
      ∀ c ∈ calls, c.Countable)) ∧
    ∀ (o : Objects (Dict κ ν)) (calls : List (DictCall κ ν)), (∀ c ∈ calls, c.zone.Nonempty) →
      ((∃ st, DictRangeMap.run o calls = some st ∧
        (∀ a, DictRangeMap.getItem st a = pointwise DictCall.zone DictCall.onDict [] calls a ∧
          ∀ key, DictRangeMap.getKey st a key =
            Dict.get key (pointwise DictCall.zone DictCall.onDict [] calls a)) ∧
        ∀ c : DictCall κ ν, c.zone.Nonempty → c.Countable →
          ∃ st', DictRangeMap.call st c = some st' ∧
            ∀ a, ¬ c.zone.Contains a → DictRangeMap.getItem st' a = DictRangeMap.getItem st a) ↔
      ∀ c ∈ calls, c.Countable) := by
  refine ⟨fun o calls hzones => ⟨?_, fun hlens => ?_⟩, fun o calls hzones => ⟨?_, fun hlens => ?_⟩⟩
  · rintro ⟨st, hrun, -⟩ c hc
    exact forall_of_foldlM SetRangeMap.countable_of_call hrun c hc (hzones c hc)
  · obtain ⟨st, hrun, hst⟩ := foldlM_stands SetRangeMap.call_stands (stands_init o) hzones hlens
    refine ⟨st, hrun, hst.container, fun c hc hlen => ?_⟩
    obtain ⟨st', hcall, hst'⟩ := SetRangeMap.call_stands hst hc hlen
    refine ⟨st', hcall, fun a ha => ?_⟩
    rw [SetRangeMap.getItem, SetRangeMap.getItem, hst'.container, hst.container, if_neg ha]
  · rintro ⟨st, hrun, -⟩ c hc
    exact forall_of_foldlM DictRangeMap.countable_of_call hrun c hc (hzones c hc)
  · obtain ⟨st, hrun, hst⟩ := foldlM_stands DictRangeMap.call_stands (stands_init o) hzones hlens
    refine ⟨st, hrun, fun a => ?_, fun c hc hlen => ?_⟩
    · have hitem := hst.container a
      refine ⟨hitem, fun key => ?_⟩
      rw [← hitem]
      unfold DictRangeMap.getKey State.container
      cases st.value a with
      | none => rfl
      | some values => cases values <;> rfl
    · obtain ⟨st', hcall, hst'⟩ := DictRangeMap.call_stands hst hc hlen
      refine ⟨st', hcall, fun a ha => ?_⟩
      rw [DictRangeMap.getItem, DictRangeMap.getItem, hst'.container, hst.container, if_neg ha]

end Agreement

/-- Assigned ranges, an addition across both, a removal at one address. -/
def setCalls : List (SetCall Nat) :=
  [.setItem (.slice (some 0) (some 2)) {1}, .setItem (.slice (some 2) (some 7)) {2},
    .add (.range 1 4) 3, .discard (.int 3) 2, .delItem (.int 4)]

def dictCalls : List (DictCall Nat Nat) :=
  [.setKey (.slice (some 0) (some 5)) 0 10, .setKey (.slice (some 5) (some 8)) 1 11,
    .setKey (.slice (some 4) (some 6)) 2 12, .delZone (.slice (some 2) (some 4))]

theorem container_maps_pointwise_runs :
    (∃ st, SetRangeMap.run ⟨fun _ => ∅, 0⟩ setCalls = some st ∧
      SetRangeMap.getItem st 2 = {2, 3} ∧ SetRangeMap.getItem st 3 = {3}) ∧
    ∃ st, DictRangeMap.run ⟨fun _ => [], 0⟩ dictCalls = some st ∧
      DictRangeMap.getItem st 4 = [(0, 10), (2, 12)] ∧
      DictRangeMap.getItem st 5 = [(1, 11), (2, 12)] := by
  obtain ⟨hsets, hdicts⟩ := @container_maps_pointwise Nat Nat _
  obtain ⟨st, hrun, hpoints, -⟩ := (hsets ⟨fun _ => ∅, 0⟩ setCalls (by decide)).mpr (by decide)
  obtain ⟨st', hrun', hpoints', -⟩ := (hdicts ⟨fun _ => [], 0⟩ dictCalls (by decide)).mpr
    (by decide)
  exact ⟨⟨st, hrun, (hpoints 2).trans (by decide), (hpoints 3).trans (by decide)⟩,
    ⟨st', hrun', (hpoints' 4).1.trans (by decide), (hpoints' 5).1.trans (by decide)⟩⟩

/-- `add(range(0, 1 << 64), key)` and `m[0:1 << 64, key] = value` on new maps. -/
theorem container_maps_raise_whole_space :
    ((Zone.range 0 (2 ^ 64)).Nonempty ∧
      SetRangeMap.run ⟨fun _ => ∅, 0⟩ [SetCall.add (.range 0 (2 ^ 64)) 0] = none) ∧
    (Zone.slice (some 0) (some (2 ^ 64))).Nonempty ∧
      DictRangeMap.run ⟨fun _ => [], 0⟩ [DictCall.setKey (.slice (some 0) (some (2 ^ 64))) 0 0] =
        none := by
  refine ⟨⟨by decide, ?_⟩, by decide, ?_⟩
  · simp only [SetRangeMap.run, List.foldlM_cons, SetRangeMap.call, SetRangeMap.add, State.fill]
    rw [populate_long (by decide) (by decide)]
    rfl
  · simp only [DictRangeMap.run, List.foldlM_cons, DictRangeMap.call, DictRangeMap.setKey,
      State.fill]
    rw [populate_long (by decide) (by decide)]
    rfl

end MiniHaywire.RangeMap

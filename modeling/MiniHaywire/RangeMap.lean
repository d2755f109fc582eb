import MiniHaywire.Intervals

/-!
# Range maps

The class `RangeMap` of `utils.py`.  Three parallel lists hold the first and the
last address of each stored range and its value.  The values are objects that the
callers change in place: a range map keeps references, and where it splits a range
it makes a copy of the object for the right part.  The model therefore has the
objects and what they hold beside the lists.

A call that fails an `assert` (or would index a list out of its bounds) is `none`, and
so is one that raises `OverflowError`: `populate` asks for the `len` of the zone.
The generators `populate` and `overlaps` are run to their end; what their caller
does to each value that is yielded, before it asks for the next one, is a function
`upd` of the range and of what the object holds.
-/

namespace MiniHaywire.RangeMap

open Intervals

/-! ### Objects -/

/-- The identity of an object. -/
abbrev Ref := Nat

/-- What the objects hold.  Those from `next` on do not exist yet. -/
structure Objects (α : Type) where
  content : Ref → α
  next : Ref

section Objects

variable {α : Type} (o : Objects α)

def Objects.alloc (c : α) : Ref × Objects α :=
  (o.next, ⟨Function.update o.content o.next c, o.next + 1⟩)

def Objects.copy (r : Ref) : Ref × Objects α := o.alloc (o.content r)

def Objects.modify (r : Ref) (f : α → α) : Objects α :=
  ⟨Function.update o.content r (f (o.content r)), o.next⟩

end Objects

/-! ### Zones -/

/-- What a caller may give as a zone. -/
inductive Zone where
  | range (start stop : Int)
  | slice (start stop : Option Int)
  | int (n : Int)
deriving DecidableEq, Repr

/-- `__zone`, where the range starts. -/
def Zone.start : Zone → Int
  | .range start _ => start
  | .slice start _ => start.getD 0
  | .int n => n

/-- `__zone`, where the range stops. -/
def Zone.stop : Zone → Int
  | .range _ stop => stop
  | .slice _ stop => stop.getD (2 ^ 64)
  | .int n => n + 1

def Zone.Nonempty (z : Zone) : Prop := z.start < z.stop

def Zone.Contains (z : Zone) (a : Int) : Prop := z.start ≤ a ∧ a < z.stop

/-- `sys.maxsize` of a 64-bit host. -/
def maxsize : Int := 2 ^ 63 - 1

/-- The zone has a `len`; it is an `OverflowError` to ask for a longer one. -/
def Zone.Countable (z : Zone) : Prop := z.stop - z.start ≤ maxsize

instance decidableCountable (z : Zone) : Decidable z.Countable :=
  inferInstanceAs (Decidable (z.stop - z.start ≤ maxsize))

instance decidableNonempty (z : Zone) : Decidable z.Nonempty :=
  inferInstanceAs (Decidable (z.start < z.stop))

instance decidableContains (z : Zone) (a : Int) : Decidable (z.Contains a) :=
  inferInstanceAs (Decidable (z.start ≤ a ∧ a < z.stop))

/-! ### The class -/

structure Lists where
  starts : List Int
  ends : List Int
  values : List Ref
deriving DecidableEq, Repr

/-- `bisect.bisect_left`, for a sorted list. -/
def bisectLeft (xs : List Int) (x : Int) : Nat := (xs.takeWhile (· < x)).length

def Lists.contains (m : Lists) (pos : Nat) (addr : Int) : Bool :=
  match m.starts[pos]?, m.ends[pos]? with
  | some s, some e => s ≤ addr && addr ≤ e
  | _, _ => false

def Lists.lookup (m : Lists) (addr : Int) : Option Ref :=
  if m.contains (bisectLeft m.ends addr) addr then m.values[bisectLeft m.ends addr]? else none

/-- A range map and the objects. -/
structure State (α : Type) where
  map : Lists
  objs : Objects α

section Methods

variable {α : Type}

/-- What the object at an address holds. -/
def State.value (st : State α) (addr : Int) : Option α :=
  (st.map.lookup addr).map st.objs.content

def State.split (st : State α) (pos : Nat) (addr : Int) : Option (State α) := do
  let v ← st.map.values[pos]?
  some
    { map :=
        { starts := st.map.starts.insertIdx (pos + 1) addr
          ends := st.map.ends.insertIdx pos (addr - 1)
          values := st.map.values.insertIdx (pos + 1) (st.objs.copy v).1 }
      objs := (st.objs.copy v).2 }

/-- The insertion point for a zone, after what `_overlap_range` and `populate` do about an
    overlap on the left side. -/
def State.splitLeft (st : State α) (start : Int) : Option (Nat × State α) :=
  let pos := bisectLeft st.map.ends start
  if st.map.contains pos start ∧ st.map.starts[pos]? ≠ some start then do
    let st ← st.split pos start
    if st.map.starts[pos + 1]? = some start then some (pos + 1, st) else none
  else some (pos, st)

/-- The loop of `_overlap_range`, with `n` positions to go. -/
def overlapLoop (stop : Int) (split : Bool) : Nat → Nat → State α → Option (Nat × State α)
  | 0, pos, st => some (pos, st)
  | n + 1, pos, st => do
    let s ← st.map.starts[pos]?
    let e ← st.map.ends[pos]?
    if s ≥ stop then some (pos, st)
    else if split = true ∧ e + 1 > stop then do
      let st ← st.split pos stop
      some (pos + 1, st)
    else overlapLoop stop split n (pos + 1) st

def State.overlapRange (st : State α) (zone : Zone) (split : Bool) :
    Option ((Nat × Nat) × State α) :=
  if zone.stop ≤ zone.start then some ((0, 0), st)
  else do
    let (start, st) ←
      if split then st.splitLeft zone.start
      else some (bisectLeft st.map.ends zone.start, st)
    let (stop, st) ← overlapLoop zone.stop split (st.map.starts.length - start) start st
    some ((start, stop), st)

/-- The loop of `populate`: the ranges and values yielded, and the state at the end.  A round
    passes a stored range or fills the gap before one, so there are at most `fuel` of them. -/
def populateLoop (default : Ref) (upd : Int → Int → α → α) (stop : Int) :
    Nat → Nat → Int → State α → Option (List (Entry Ref) × State α)
  | 0, _, _, _ => none
  | fuel + 1, pos, start, st =>
    if start < stop then
      if pos = st.map.starts.length then
        -- append to the end, and leave the loop
        let (val, objs) := st.objs.copy default
        some ([⟨start, stop - 1, val⟩],
          { map := ⟨st.map.starts ++ [start], st.map.ends ++ [stop - 1], st.map.values ++ [val]⟩
            objs := objs.modify val (upd start stop) })
      else do
        let s ← st.map.starts[pos]?
        if s < start then none
        else if s > start then do
          -- insert a new range
          let boundary := min stop s
          let (val, objs) := st.objs.copy default
          let (ys, st) ← populateLoop default upd stop fuel (pos + 1) boundary
            { map := ⟨st.map.starts.insertIdx pos start, st.map.ends.insertIdx pos (boundary - 1),
                st.map.values.insertIdx pos val⟩
              objs := objs.modify val (upd start boundary) }
          some (⟨start, boundary - 1, val⟩ :: ys, st)
        else do
          -- an existing range, cut off on the right side
          let e ← st.map.ends[pos]?
          let st ← if e > stop - 1 then st.split pos stop else some st
          let e ← st.map.ends[pos]?
          let v ← st.map.values[pos]?
          let (ys, st) ← populateLoop default upd stop fuel (pos + 1) (e + 1)
            { st with objs := st.objs.modify v (upd s (e + 1)) }
          some (⟨s, e, v⟩ :: ys, st)
    else if start = stop then some ([], st)
    else none

def State.populate (st : State α) (zone : Zone) (default : Ref) (upd : Int → Int → α → α) :
    Option (List (Entry Ref) × State α) :=
  if zone.stop ≤ zone.start then some ([], st)
  else if ¬ zone.Countable then none
  else do
    let (pos, st) ← st.splitLeft zone.start
    populateLoop default upd zone.stop (2 * (st.map.starts.length - pos) + 2) pos zone.start st

/-- The loop of `overlaps`, with `n` positions to go. -/
def overlapsLoop (upd : Int → Int → α → α) :
    Nat → Nat → State α → Option (List (Entry Ref) × State α)
  | 0, _, st => some ([], st)
  | n + 1, pos, st => do
    let s ← st.map.starts[pos]?
    let e ← st.map.ends[pos]?
    let v ← st.map.values[pos]?
    let (ys, st) ← overlapsLoop upd n (pos + 1)
      { st with objs := st.objs.modify v (upd s (e + 1)) }
    some (⟨s, e, v⟩ :: ys, st)

def State.overlaps (st : State α) (zone : Zone) (split : Bool) (upd : Int → Int → α → α) :
    Option (List (Entry Ref) × State α) := do
  let ((start, stop), st) ← st.overlapRange zone split
  overlapsLoop upd (stop - start) start st

def State.replace (st : State α) (zone : Zone) (val : Ref) : Option (State α) :=
  if zone.start = zone.stop then some st
  else do
    let ((start, stop), st) ← st.overlapRange zone true
    some
      { st with map :=
          { starts := st.map.starts.take start ++ [zone.start] ++ st.map.starts.drop stop
            ends := st.map.ends.take start ++ [zone.stop - 1] ++ st.map.ends.drop stop
            values := st.map.values.take start ++ [val] ++ st.map.values.drop stop } }

def State.clear (st : State α) (zone : Zone) : Option (State α) :=
  if zone.start = zone.stop then some st
  else do
    let ((start, stop), st) ← st.overlapRange zone true
    some
      { st with map :=
          { starts := st.map.starts.take start ++ st.map.starts.drop stop
            ends := st.map.ends.take start ++ st.map.ends.drop stop
            values := st.map.values.take start ++ st.map.values.drop stop } }

def Lists.entries (m : Lists) : List (Entry Ref) :=
  List.zipWith (fun s (e, v) => ⟨s, e, v⟩) m.starts (m.ends.zip m.values)

def ofEntries (es : List (Entry Ref)) : Lists :=
  ⟨es.map Entry.lo, es.map Entry.hi, es.map Entry.val⟩

/-- The loop of `compact`; the ranges kept so far stand with the last one first. -/
def compactLoop (equal : α → α → Bool) (empty : α → Bool) (content : Ref → α) :
    List (Entry Ref) → List (Entry Ref) → List (Entry Ref)
  | kept, [] => kept.reverse
  | kept, e :: es =>
    if empty (content e.val) then compactLoop equal empty content kept es
    else
      match kept with
      | [] => compactLoop equal empty content [e] es
      | last :: before =>
        if equal (content last.val) (content e.val) ∧ e.lo = last.hi + 1 then
          compactLoop equal empty content (⟨last.lo, e.hi, last.val⟩ :: before) es
        else compactLoop equal empty content (e :: last :: before) es

def State.compact (st : State α) (equal : α → α → Bool) (empty : α → Bool) : State α :=
  { st with map := ofEntries (compactLoop equal empty st.objs.content [] st.map.entries) }

end Methods

/-! ### The lists as entries -/

section Entries

variable {α : Type} {pre post : List (Entry Ref)} {e : Entry Ref}

@[simp] theorem ofEntries_starts (es : List (Entry Ref)) :
    (ofEntries es).starts = es.map Entry.lo := rfl

@[simp] theorem ofEntries_ends (es : List (Entry Ref)) :
    (ofEntries es).ends = es.map Entry.hi := rfl

@[simp] theorem ofEntries_values (es : List (Entry Ref)) :
    (ofEntries es).values = es.map Entry.val := rfl

theorem getElem_map_seam {β : Type*} (f : Entry Ref → β) :
    ((pre ++ e :: post).map f)[pre.length]? = some (f e) := by
  simp

theorem insertIdx_seam {β : Type*} (xs ys : List β) (y : β) :
    (xs ++ ys).insertIdx xs.length y = xs ++ y :: ys := by
  induction xs with
  | nil => rfl
  | cons x xs ih => rw [List.cons_append, List.length_cons, List.insertIdx_succ_cons, ih]; rfl

theorem bisectLeft_seam {x : Int} (hpre : ∀ f ∈ pre, f.hi < x) (hpost : ∀ f ∈ post, x ≤ f.hi) :
    bisectLeft ((pre ++ post).map Entry.hi) x = pre.length := by
  have hall : ∀ y ∈ pre.map Entry.hi, decide (y < x) = true := by
    intro y hy
    obtain ⟨f, hf, rfl⟩ := List.mem_map.mp hy
    exact decide_eq_true (hpre f hf)
  have hnone : (post.map Entry.hi).takeWhile (· < x) = [] := by
    rcases post with _ | ⟨f, post⟩
    · rfl
    · have hf := hpost f (by simp)
      rw [List.map_cons, List.takeWhile_cons_of_neg]
      simpa using hf
  rw [bisectLeft, List.map_append, List.takeWhile_append_of_pos hall, hnone, List.append_nil,
    List.length_map]

theorem contains_seam (a : Int) :
    (ofEntries (pre ++ e :: post)).contains pre.length a = (e.lo ≤ a && a ≤ e.hi) := by
  rw [Lists.contains, ofEntries_starts, ofEntries_ends, getElem_map_seam, getElem_map_seam]

theorem contains_last (a : Int) : (ofEntries pre).contains pre.length a = false := by
  simp [Lists.contains]

/-- On ordered entries the search finds the value at an address. -/
theorem lookup_ofEntries {es : List (Entry Ref)} (h : Ordered es) (a : Int) :
    (ofEntries es).lookup a = valueAt es a := by
  obtain ⟨xs, ys, rfl, hxs, hys⟩ := h.cut a
  rw [Lists.lookup, ofEntries_ends, bisectLeft_seam hxs hys, valueAt_append, valueAt_below hxs,
    Option.none_or]
  rcases ys with _ | ⟨e, ys⟩
  · rw [List.append_nil, contains_last]
    rfl
  · obtain ⟨-, hrest, -⟩ := ordered_append.mp h
    obtain ⟨-, -, hseam⟩ := ordered_cons.mp hrest
    have hhi := hys e (by simp)
    rw [contains_seam, ofEntries_values, getElem_map_seam, valueAt_cons]
    by_cases hlo : e.lo ≤ a
    · simp [hlo, hhi]
    · rw [if_neg (by simp [hlo]), if_neg (by omega), valueAt_above]
      intro f hf
      have hlt := hseam f hf
      have hne := (ordered_cons.mp hrest).1
      omega

theorem split_seam (pre post : List (Entry Ref)) (e : Entry Ref) (o : Objects α) (addr : Int) :
    State.split ⟨ofEntries (pre ++ e :: post), o⟩ pre.length addr =
      some ⟨ofEntries (pre ++ ⟨e.lo, addr - 1, e.val⟩ :: ⟨addr, e.hi, o.next⟩ :: post),
        (o.copy e.val).2⟩ := by
  have hstarts : ((pre ++ e :: post).map Entry.lo).insertIdx (pre.length + 1) addr =
      pre.map Entry.lo ++ e.lo :: addr :: post.map Entry.lo := by
    have hseam := insertIdx_seam ((pre ++ [e]).map Entry.lo) (post.map Entry.lo) addr
    simpa using hseam
  have hends : ((pre ++ e :: post).map Entry.hi).insertIdx pre.length (addr - 1) =
      pre.map Entry.hi ++ (addr - 1) :: e.hi :: post.map Entry.hi := by
    have hseam := insertIdx_seam (pre.map Entry.hi) ((e :: post).map Entry.hi) (addr - 1)
    simpa using hseam
  have hvalues : ((pre ++ e :: post).map Entry.val).insertIdx (pre.length + 1) o.next =
      pre.map Entry.val ++ e.val :: o.next :: post.map Entry.val := by
    have hseam := insertIdx_seam ((pre ++ [e]).map Entry.val) (post.map Entry.val) o.next
    simpa using hseam
  rw [State.split]
  simp only [Option.bind_eq_bind, Objects.copy, Objects.alloc, ofEntries_starts, ofEntries_ends,
    ofEntries_values, hstarts, hends, hvalues]
  simp [ofEntries]

end Entries

/-! ### What stays the same -/

section Views

variable {α : Type}

def view (o : Objects α) (es : List (Entry Ref)) (a : Int) : Option α :=
  (valueAt es a).map o.content

/-- Entries in order, with objects that exist. -/
structure Sane (o : Objects α) (es : List (Entry Ref)) : Prop where
  ordered : Ordered es
  known : ∀ e ∈ es, e.val < o.next

theorem Sane.next_fresh {o : Objects α} {es : List (Entry Ref)} (h : Sane o es) :
    o.next ∉ es.map Entry.val := by
  intro hmem
  obtain ⟨e, he, heq⟩ := List.mem_map.mp hmem
  exact absurd (h.known e he) (by rw [heq]; exact lt_irrefl _)

/-- No object is stored twice. -/
def Unshared (es : List (Entry Ref)) : Prop := (es.map Entry.val).Nodup

theorem unshared_append {xs ys : List (Entry Ref)} :
    Unshared (xs ++ ys) ↔ Unshared xs ∧ Unshared ys ∧ ∀ e ∈ xs, e.val ∉ ys.map Entry.val := by
  unfold Unshared
  rw [List.map_append, List.nodup_append']
  refine and_congr_right fun _ => and_congr_right fun _ => ?_
  exact List.forall_mem_map

theorem mem_of_origin {n : Ref} {es es' : List (Entry Ref)}
    (horigin : ∀ e ∈ es', e.val ∈ es.map Entry.val ∨ n ≤ e.val) {r : Ref} (hr : r < n)
    (hmem : r ∈ es'.map Entry.val) : r ∈ es.map Entry.val := by
  obtain ⟨e, he, rfl⟩ := List.mem_map.mp hmem
  exact (horigin e he).resolve_right (not_le.mpr hr)

theorem origin_trans {n n' : Ref} {es es' es'' : List (Entry Ref)}
    (horigin : ∀ e ∈ es', e.val ∈ es.map Entry.val ∨ n ≤ e.val) (hle : n ≤ n')
    (horigin' : ∀ e ∈ es'', e.val ∈ es'.map Entry.val ∨ n' ≤ e.val) :
    ∀ e ∈ es'', e.val ∈ es.map Entry.val ∨ n ≤ e.val := by
  intro e he
  rcases horigin' e he with hold | hnew
  · obtain ⟨f, hf, heq⟩ := List.mem_map.mp hold
    rw [← heq]
    exact horigin f hf
  · exact Or.inr (hle.trans hnew)

/-- Ranges were split: there are more entries and more objects, with the same contents at the
    same addresses.  Nothing but a copy is new. -/
structure Refines (o : Objects α) (es : List (Entry Ref)) (o' : Objects α)
    (es' : List (Entry Ref)) : Prop where
  sane : Sane o' es'
  next_le : o.next ≤ o'.next
  content_eq : ∀ r < o.next, o'.content r = o.content r
  view_eq : ∀ a, view o' es' a = view o es a
  found : ∀ a r, valueAt es a = some r → ∃ r', valueAt es' a = some r' ∧ (r' = r ∨ o.next ≤ r')
  origin : ∀ e ∈ es', e.val ∈ es.map Entry.val ∨ o.next ≤ e.val
  unshared : Unshared es → Unshared es'

theorem Refines.refl {o : Objects α} {es : List (Entry Ref)} (h : Sane o es) :
    Refines o es o es :=
  ⟨h, le_refl _, fun _ _ => rfl, fun _ => rfl, fun _ r hr => ⟨r, hr, Or.inl rfl⟩,
    fun _ he => Or.inl (List.mem_map_of_mem he), id⟩

theorem Refines.trans {o o' o'' : Objects α} {es es' es'' : List (Entry Ref)}
    (h : Refines o es o' es') (h' : Refines o' es' o'' es'') : Refines o es o'' es'' := by
  refine ⟨h'.sane, h.next_le.trans h'.next_le, ?_, ?_, ?_,
    origin_trans h.origin h.next_le h'.origin, h'.unshared ∘ h.unshared⟩
  · intro r hr
    rw [h'.content_eq r (hr.trans_le h.next_le), h.content_eq r hr]
  · intro a
    rw [h'.view_eq, h.view_eq]
  · intro a r hr
    obtain ⟨r₁, hr₁, hcase⟩ := h.found a r hr
    obtain ⟨r₂, hr₂, hcase'⟩ := h'.found a r₁ hr₁
    refine ⟨r₂, hr₂, ?_⟩
    rcases hcase' with rfl | hnew
    · exact hcase
    · exact Or.inr (h.next_le.trans hnew)

theorem copy_content_of_lt (o : Objects α) (r : Ref) {r' : Ref} (h : r' < o.next) :
    (o.copy r).2.content r' = o.content r' :=
  Function.update_of_ne (Nat.ne_of_lt h) _ _

theorem copy_content_next (o : Objects α) (r : Ref) :
    (o.copy r).2.content o.next = o.content r :=
  Function.update_self ..

theorem view_append (o : Objects α) (xs ys : List (Entry Ref)) (a : Int) :
    view o (xs ++ ys) a = (view o xs a).or (view o ys a) := by
  unfold view
  rw [valueAt_append]
  cases valueAt xs a <;> rfl

theorem view_congr {o o' : Objects α} {es : List (Entry Ref)}
    (h : ∀ e ∈ es, o'.content e.val = o.content e.val) (a : Int) :
    view o' es a = view o es a := by
  unfold view
  cases hv : valueAt es a with
  | none => rfl
  | some v =>
    obtain ⟨e, he, -, -, rfl⟩ := mem_of_valueAt hv
    rw [Option.map_some, Option.map_some, h e he]

theorem refines_split {o : Objects α} {pre post : List (Entry Ref)} {e : Entry Ref} {addr : Int}
    (h : Sane o (pre ++ e :: post)) (hlo : e.lo < addr) (hhi : addr ≤ e.hi) :
    Refines o (pre ++ e :: post) (o.copy e.val).2
      (pre ++ ⟨e.lo, addr - 1, e.val⟩ :: ⟨addr, e.hi, o.next⟩ :: post) := by
  have hknown := h.known
  have hcontent : ∀ r < o.next, (o.copy e.val).2.content r = o.content r :=
    fun r hr => copy_content_of_lt o e.val hr
  have hvalue := valueAt_split pre post hlo hhi o.next
  refine ⟨⟨h.ordered.split hlo hhi _ _, ?_⟩, Nat.le_succ _, hcontent, ?_, ?_, ?_, ?_⟩
  · intro f hf
    change f.val < o.next + 1
    simp only [List.mem_append, List.mem_cons] at hf
    rcases hf with hf | rfl | rfl | hf
    · exact Nat.lt_succ_of_lt (hknown f (by simp [hf]))
    · exact Nat.lt_succ_of_lt (hknown e (by simp))
    · exact Nat.lt_succ_self _
    · exact Nat.lt_succ_of_lt (hknown f (by simp [hf]))
  · intro a
    rcases hvalue a with hsame | ⟨hold, hnew⟩
    · rw [← view_congr fun f hf => hcontent _ (hknown f hf), view, hsame, view]
    · rw [view, view, hold, hnew, Option.map_some, Option.map_some, copy_content_next]
  · intro a r hr
    rcases hvalue a with hsame | ⟨-, hnew⟩
    · exact ⟨r, hsame.trans hr, Or.inl rfl⟩
    · exact ⟨o.next, hnew, Or.inr (le_refl _)⟩
  · intro f hf
    simp only [List.mem_append, List.mem_cons] at hf
    rcases hf with hf | rfl | rfl | hf
    · exact Or.inl (List.mem_map_of_mem (by simp [hf]))
    · exact Or.inl (List.mem_map.mpr ⟨e, by simp, rfl⟩)
    · exact Or.inr (le_refl _)
    · exact Or.inl (List.mem_map_of_mem (by simp [hf]))
  · intro hnodup
    have hperm : ((pre ++ ⟨e.lo, addr - 1, e.val⟩ :: ⟨addr, e.hi, o.next⟩ :: post).map
        Entry.val).Perm (o.next :: (pre ++ e :: post).map Entry.val) := by
      simp only [List.map_append, List.map_cons]
      exact (List.Perm.append_left _ (List.Perm.swap _ _ _)).trans List.perm_middle
    exact hperm.nodup_iff.mpr (List.nodup_cons.mpr ⟨h.next_fresh, hnodup⟩)

end Views

/-! ### Cutting at the ends of a zone -/

section Cut

variable {α : Type} {o : Objects α}

theorem splitLeft_spec {es : List (Entry Ref)} (h : Sane o es) (start : Int) :
    ∃ pre post o', State.splitLeft ⟨ofEntries es, o⟩ start =
        some (pre.length, ⟨ofEntries (pre ++ post), o'⟩) ∧
      Refines o es o' (pre ++ post) ∧ (∀ e ∈ pre, e.hi < start) ∧ ∀ e ∈ post, start ≤ e.lo := by
  obtain ⟨xs, ys, rfl, hxs, hys⟩ := h.ordered.cut start
  unfold State.splitLeft
  dsimp only [ofEntries_ends]
  rw [bisectLeft_seam hxs hys]
  rcases ys with _ | ⟨e, ys⟩
  · refine ⟨xs, [], o, ?_, Refines.refl h, hxs, by simp⟩
    rw [List.append_nil, contains_last, if_neg (by simp)]
  · obtain ⟨-, hrest, -⟩ := ordered_append.mp h.ordered
    obtain ⟨hne, hordered, hafter⟩ := ordered_cons.mp hrest
    have hhi := hys e (by simp)
    rw [contains_seam, ofEntries_starts, getElem_map_seam]
    by_cases hinside : e.lo < start
    · -- the entry reaches over the start of the zone
      have hsplit := split_seam xs ys e o start
      rw [if_pos (by simp; omega), hsplit]
      refine ⟨xs ++ [⟨e.lo, start - 1, e.val⟩], ⟨start, e.hi, o.next⟩ :: ys, (o.copy e.val).2, ?_,
        ?_, ?_, ?_⟩
      · simp
      · rw [List.append_assoc]
        exact refines_split h hinside hhi
      · intro f hf
        rcases List.mem_append.mp hf with hf | hf
        · exact hxs f hf
        · rw [List.mem_singleton.mp hf]
          dsimp only
          omega
      · intro f hf
        rcases List.mem_cons.mp hf with rfl | hf
        · exact le_refl _
        · have hlt := hafter f hf
          omega
    · refine ⟨xs, e :: ys, o, ?_, Refines.refl h, hxs, ?_⟩
      · rw [if_neg]
        simp
        omega
      · intro f hf
        rcases List.mem_cons.mp hf with rfl | hf
        · omega
        · have hlt := hafter f hf
          omega

/-- Without `split` the loop only counts. -/
theorem overlapLoop_spec (stop : Int) (split : Bool) (rest : List (Entry Ref)) :
    ∀ done : List (Entry Ref), Sane o (done ++ rest) →
      ∃ mid post o', overlapLoop stop split rest.length done.length ⟨ofEntries (done ++ rest), o⟩ =
          some (done.length + mid.length, ⟨ofEntries (done ++ (mid ++ post)), o'⟩) ∧
        Refines o (done ++ rest) o' (done ++ (mid ++ post)) ∧
        (∀ e ∈ mid, (split = true → e.hi < stop) ∧ ∃ f ∈ rest, f.lo = e.lo) ∧
        (∀ e ∈ post, stop ≤ e.lo) ∧ (split = false → rest = mid ++ post ∧ o' = o) := by
  induction rest with
  | nil =>
    intro done h
    exact ⟨[], [], o, rfl, Refines.refl h, by simp, by simp, fun _ => ⟨rfl, rfl⟩⟩
  | cons e rest ih =>
    intro done h
    obtain ⟨-, hrest, -⟩ := ordered_append.mp h.ordered
    obtain ⟨hne, hordered, hafter⟩ := ordered_cons.mp hrest
    rw [List.length_cons, overlapLoop]
    simp only [ofEntries_starts, ofEntries_ends, getElem_map_seam, Option.bind_eq_bind,
      Option.bind_some]
    by_cases hbehind : e.lo ≥ stop
    · rw [if_pos hbehind]
      refine ⟨[], e :: rest, o, rfl, Refines.refl h, by simp, ?_, fun _ => ⟨rfl, rfl⟩⟩
      intro f hf
      rcases List.mem_cons.mp hf with rfl | hf
      · exact hbehind
      · have hlt := hafter f hf
        omega
    · rw [if_neg hbehind]
      by_cases hcut : split = true ∧ e.hi + 1 > stop
      · rw [if_pos hcut, split_seam]
        refine ⟨[⟨e.lo, stop - 1, e.val⟩], ⟨stop, e.hi, o.next⟩ :: rest, (o.copy e.val).2, rfl,
          refines_split h (by omega) (by omega), ?_, ?_, ?_⟩
        · intro f hf
          rw [List.mem_singleton.mp hf]
          exact ⟨fun _ => by dsimp only; omega, e, by simp, rfl⟩
        · intro f hf
          rcases List.mem_cons.mp hf with rfl | hf
          · exact le_refl _
          · have hlt := hafter f hf
            omega
        · intro hkeep
          cases hcut.1.symm.trans hkeep
      · rw [if_neg hcut]
        have hmoved : done ++ e :: rest = (done ++ [e]) ++ rest := by simp
        rw [hmoved] at h ⊢
        obtain ⟨mid, post, o', hloop, href, hmid, hpost, hsame⟩ := ih (done ++ [e]) h
        have hlen : (done ++ [e]).length = done.length + 1 := by simp
        have hlen' : done.length + 1 + mid.length = done.length + (e :: mid).length := by
          simp only [List.length_cons]
          omega
        rw [hlen, hlen', List.append_assoc, List.singleton_append] at hloop
        refine ⟨e :: mid, post, o', ?_, ?_, ?_, hpost, ?_⟩
        · simpa using hloop
        · simpa using href
        · intro f hf
          rcases List.mem_cons.mp hf with rfl | hf
          · refine ⟨fun hsplit => ?_, f, by simp, rfl⟩
            have hhi := not_and.mp hcut hsplit
            omega
          · obtain ⟨hhi, g, hg, hlo⟩ := hmid f hf
            exact ⟨hhi, g, by simp [hg], hlo⟩
        · intro hkeep
          obtain ⟨rfl, rfl⟩ := hsame hkeep
          exact ⟨rfl, rfl⟩

/-- The entries of a map, cut at both ends of a zone. -/
structure Cut (zone : Zone) (pre mid post : List (Entry Ref)) : Prop where
  before : ∀ e ∈ pre, e.hi < zone.start
  inside : ∀ e ∈ mid, zone.start ≤ e.lo ∧ e.hi < zone.stop
  behind : ∀ e ∈ post, zone.stop ≤ e.lo

theorem overlapRange_split {es : List (Entry Ref)} (h : Sane o es) {zone : Zone}
    (hzone : zone.Nonempty) :
    ∃ pre mid post o', State.overlapRange ⟨ofEntries es, o⟩ zone true =
        some ((pre.length, pre.length + mid.length), ⟨ofEntries (pre ++ (mid ++ post)), o'⟩) ∧
      Refines o es o' (pre ++ (mid ++ post)) ∧ Cut zone pre mid post := by
  obtain ⟨pre, rest, o₁, hleft, href, hpre, hrest⟩ := splitLeft_spec h zone.start
  obtain ⟨mid, post, o₂, hloop, href', hmid, hpost, -⟩ :=
    overlapLoop_spec zone.stop true rest pre href.sane
  refine ⟨pre, mid, post, o₂, ?_, href.trans href', hpre, ?_, hpost⟩
  · have hlen : (pre ++ rest).length - pre.length = rest.length := by simp
    unfold State.overlapRange
    rw [if_neg (not_le.mpr hzone), if_pos rfl, hleft]
    simp only [Option.bind_eq_bind, Option.bind_some, ofEntries_starts, List.length_map, hlen,
      hloop]
  · intro e he
    obtain ⟨hhi, f, hf, hlo⟩ := hmid e he
    exact ⟨hlo ▸ hrest f hf, hhi rfl⟩

theorem overlapRange_keep {es : List (Entry Ref)} (h : Sane o es) {zone : Zone}
    (hzone : zone.Nonempty) :
    ∃ pre mid post, es = pre ++ (mid ++ post) ∧
      State.overlapRange ⟨ofEntries es, o⟩ zone false =
        some ((pre.length, pre.length + mid.length), ⟨ofEntries es, o⟩) ∧
      (∀ e ∈ pre, e.hi < zone.start) ∧ ∀ e ∈ post, zone.stop ≤ e.lo := by
  obtain ⟨pre, rest, rfl, hpre, hrest⟩ := h.ordered.cut zone.start
  obtain ⟨mid, post, o', hloop, -, -, hpost, hsame⟩ := overlapLoop_spec zone.stop false rest pre h
  obtain ⟨rfl, rfl⟩ := hsame rfl
  refine ⟨pre, mid, post, rfl, ?_, hpre, hpost⟩
  have hlen : (pre ++ (mid ++ post)).length - pre.length = (mid ++ post).length := by simp
  unfold State.overlapRange
  rw [if_neg (not_le.mpr hzone), if_neg (by simp)]
  simp only [Option.bind_eq_bind, Option.bind_some, ofEntries_starts, ofEntries_ends,
    bisectLeft_seam hpre hrest, List.length_map, hlen, hloop]

theorem Cut.view_inside {zone : Zone} {pre mid post : List (Entry Ref)} (h : Cut zone pre mid post)
    {a : Int} (ha : zone.Contains a) : view o (pre ++ (mid ++ post)) a = view o mid a := by
  have hpre : valueAt pre a = none :=
    valueAt_below fun e he => (h.before e he).trans_le ha.1
  have hpost : valueAt post a = none :=
    valueAt_above fun e he => lt_of_lt_of_le ha.2 (h.behind e he)
  rw [view_append, view_append, view, hpre, view, view, hpost]
  simp

theorem Cut.view_outside {zone : Zone} {pre mid post : List (Entry Ref)}
    (h : Cut zone pre mid post) {a : Int} (ha : ¬ zone.Contains a) :
    view o (pre ++ (mid ++ post)) a = view o (pre ++ post) a := by
  have hmid : valueAt mid a = none := by
    refine valueAt_eq_none fun e he hcover => ha ?_
    have hin := h.inside e he
    exact ⟨hin.1.trans hcover.1, lt_of_le_of_lt hcover.2 hin.2⟩
  rw [view_append, view_append, view_append, view, view, hmid]
  simp

theorem Cut.ordered {zone : Zone} (hzone : zone.Nonempty) {pre mid post : List (Entry Ref)}
    (h : Cut zone pre mid post) (hpre : Ordered pre) (hmid : Ordered mid) (hpost : Ordered post) :
    Ordered (pre ++ (mid ++ post)) := by
  have hlt : zone.start < zone.stop := hzone
  refine ordered_append.mpr ⟨hpre, ordered_append.mpr ⟨hmid, hpost, ?_⟩, ?_⟩
  · intro e he f hf
    exact lt_of_lt_of_le (h.inside e he).2 (h.behind f hf)
  · intro e he f hf
    have hhi := h.before e he
    rcases List.mem_append.mp hf with hf | hf
    · have hlo := (h.inside f hf).1
      omega
    · have hlo := h.behind f hf
      omega

/-- Other entries in the place of those inside a zone. -/
theorem Cut.sane {zone : Zone} (hzone : zone.Nonempty) {pre mid mid' post : List (Entry Ref)}
    (h' : Cut zone pre mid' post) (hsane : Sane o (pre ++ (mid ++ post)))
    (hordered : Ordered mid') (hknown : ∀ e ∈ mid', e.val < o.next) :
    Sane o (pre ++ (mid' ++ post)) := by
  obtain ⟨hpre, hrest, -⟩ := ordered_append.mp hsane.ordered
  obtain ⟨-, hpost, -⟩ := ordered_append.mp hrest
  refine ⟨h'.ordered hzone hpre hordered hpost, ?_⟩
  intro e he
  simp only [List.mem_append] at he
  rcases he with he | he | he
  · exact hsane.known e (by simp [he])
  · exact hknown e he
  · exact hsane.known e (by simp [he])

end Cut

/-! ### Methods on entries -/

section Specs

variable {α : Type} {o : Objects α} {es : List (Entry Ref)} {zone : Zone}

theorem take_seam {β : Type*} (f : Entry Ref → β) (pre mid post : List (Entry Ref)) :
    ((pre ++ (mid ++ post)).map f).take pre.length = pre.map f := by
  simp

theorem drop_seam {β : Type*} (f : Entry Ref → β) (pre mid post : List (Entry Ref)) :
    ((pre ++ (mid ++ post)).map f).drop (pre.length + mid.length) = post.map f := by
  simp [← List.drop_drop]

theorem replace_spec (h : Sane o es) (hzone : zone.Nonempty) (r : Ref) :
    ∃ pre mid post o', State.replace ⟨ofEntries es, o⟩ zone r =
        some ⟨ofEntries (pre ++ ([⟨zone.start, zone.stop - 1, r⟩] ++ post)), o'⟩ ∧
      Refines o es o' (pre ++ (mid ++ post)) ∧ Cut zone pre mid post := by
  obtain ⟨pre, mid, post, o', hrange, href, hcut⟩ := overlapRange_split h hzone
  refine ⟨pre, mid, post, o', ?_, href, hcut⟩
  unfold State.replace
  rw [if_neg (ne_of_lt hzone), hrange]
  simp only [Option.bind_eq_bind, Option.bind_some, ofEntries_starts, ofEntries_ends,
    ofEntries_values, take_seam, drop_seam]
  simp [ofEntries]

theorem clear_spec (h : Sane o es) (hzone : zone.Nonempty) :
    ∃ pre mid post o', State.clear ⟨ofEntries es, o⟩ zone =
        some ⟨ofEntries (pre ++ ([] ++ post)), o'⟩ ∧
      Refines o es o' (pre ++ (mid ++ post)) ∧ Cut zone pre mid post := by
  obtain ⟨pre, mid, post, o', hrange, href, hcut⟩ := overlapRange_split h hzone
  refine ⟨pre, mid, post, o', ?_, href, hcut⟩
  unfold State.clear
  rw [if_neg (ne_of_lt hzone), hrange]
  simp only [Option.bind_eq_bind, Option.bind_some, ofEntries_starts, ofEntries_ends,
    ofEntries_values, take_seam, drop_seam]
  simp [ofEntries]

/-- What the caller does to the values that are yielded, one after the other. -/
def touch (upd : Int → Int → α → α) (ys : List (Entry Ref)) (o : Objects α) : Objects α :=
  ys.foldl (fun o e => o.modify e.val (upd e.lo (e.hi + 1))) o

theorem overlapsLoop_spec (upd : Int → Int → α → α) (post mid : List (Entry Ref)) :
    ∀ (pre : List (Entry Ref)) (o : Objects α),
      overlapsLoop upd mid.length pre.length ⟨ofEntries (pre ++ (mid ++ post)), o⟩ =
        some (mid, ⟨ofEntries (pre ++ (mid ++ post)), touch upd mid o⟩) := by
  induction mid with
  | nil =>
    intro pre o
    rfl
  | cons e mid ih =>
    intro pre o
    have hrest := ih (pre ++ [e]) (o.modify e.val (upd e.lo (e.hi + 1)))
    have hlen : (pre ++ [e]).length = pre.length + 1 := by simp
    rw [hlen, List.append_assoc, List.singleton_append] at hrest
    rw [List.length_cons, overlapsLoop, List.cons_append]
    simp only [ofEntries_starts, ofEntries_ends, ofEntries_values, getElem_map_seam,
      Option.bind_eq_bind, Option.bind_some, hrest]
    rfl

theorem overlaps_split (h : Sane o es) (hzone : zone.Nonempty) (upd : Int → Int → α → α) :
    ∃ pre mid post o', State.overlaps ⟨ofEntries es, o⟩ zone true upd =
        some (mid, ⟨ofEntries (pre ++ (mid ++ post)), touch upd mid o'⟩) ∧
      Refines o es o' (pre ++ (mid ++ post)) ∧ Cut zone pre mid post := by
  obtain ⟨pre, mid, post, o', hrange, href, hcut⟩ := overlapRange_split h hzone
  refine ⟨pre, mid, post, o', ?_, href, hcut⟩
  unfold State.overlaps
  rw [hrange]
  simp only [Option.bind_eq_bind, Option.bind_some, Nat.add_sub_cancel_left, overlapsLoop_spec]

theorem overlaps_keep (h : Sane o es) (hzone : zone.Nonempty) (upd : Int → Int → α → α) :
    ∃ pre mid post, es = pre ++ (mid ++ post) ∧
      State.overlaps ⟨ofEntries es, o⟩ zone false upd =
        some (mid, ⟨ofEntries es, touch upd mid o⟩) ∧
      (∀ e ∈ pre, e.hi < zone.start) ∧ ∀ e ∈ post, zone.stop ≤ e.lo := by
  obtain ⟨pre, mid, post, rfl, hrange, hpre, hpost⟩ := overlapRange_keep h hzone
  refine ⟨pre, mid, post, rfl, ?_, hpre, hpost⟩
  unfold State.overlaps
  rw [hrange]
  simp only [Option.bind_eq_bind, Option.bind_some, Nat.add_sub_cancel_left, overlapsLoop_spec]

end Specs

/-! ### Populating a zone -/

section Populate

variable {α : Type} {upd : Int → Int → α → α}

def Idle (upd : Int → Int → α → α) : Prop := ∀ lo hi c, upd lo hi c = c

theorem modify_content_of_ne (o : Objects α) {r r' : Ref} (f : α → α) (h : r' ≠ r) :
    (o.modify r f).content r' = o.content r' :=
  Function.update_of_ne h _ _

theorem modify_content_self (o : Objects α) (r : Ref) (f : α → α) :
    (o.modify r f).content r = f (o.content r) :=
  Function.update_self ..

theorem modify_idle (hidle : Idle upd) (o : Objects α) (r r' : Ref) (lo hi : Int) :
    (o.modify r (upd lo hi)).content r' = o.content r' := by
  by_cases h : r' = r
  · rw [h, modify_content_self, hidle]
  · rw [modify_content_of_ne o _ h]

/-- What keeps the caller's changes in place from showing elsewhere. -/
def Harmless (upd : Int → Int → α → α) (d : Ref) (rest : List (Entry Ref)) : Prop :=
  Idle upd ∨ Unshared rest ∧ d ∉ rest.map Entry.val

/-- What `populate` has done from `start` on, where `rest` were the entries that it found and
    `mid` are those that it yielded. -/
structure Filled (d : Ref) (upd : Int → Int → α → α) (start stop : Int) (o : Objects α)
    (rest : List (Entry Ref)) (o' : Objects α) (mid post : List (Entry Ref)) : Prop where
  tiles : Tiles start stop mid
  behind : ∀ e ∈ post, stop ≤ e.lo
  ordered : Ordered post
  next_le : o.next ≤ o'.next
  kept : ∀ r < o.next, Idle upd ∨ r ∉ rest.map Entry.val → o'.content r = o.content r
  filled : Harmless upd d rest → ∀ e ∈ mid, ∀ a, e.lo ≤ a → a ≤ e.hi →
    o'.content e.val = upd e.lo (e.hi + 1) ((view o rest a).getD (o.content d))
  found : ∀ e ∈ mid, ∀ a, e.lo ≤ a → a ≤ e.hi → ∀ r, valueAt rest a = some r → e.val = r
  fresh : ∀ e ∈ mid, ∀ a, e.lo ≤ a → a ≤ e.hi → valueAt rest a = none → o.next ≤ e.val
  after : Harmless upd d rest → ∀ a, stop ≤ a → view o' post a = view o rest a
  known : ∀ e ∈ mid ++ post, e.val < o'.next
  origin : ∀ e ∈ mid ++ post, e.val ∈ rest.map Entry.val ∨ o.next ≤ e.val
  unshared : Unshared rest → Unshared (mid ++ post)

theorem Filled.cons {d : Ref} {start stop : Int} {o o₁ o' : Objects α} {g : Entry Ref}
    {rest rest₁ mid post : List (Entry Ref)}
    (h : Filled d upd (g.hi + 1) stop o₁ rest₁ o' mid post)
    (hg : g.lo = start) (hne : g.lo ≤ g.hi) (hle : o.next ≤ o₁.next) (hgknown : g.val < o₁.next)
    (hgorigin : g.val ∈ rest.map Entry.val ∨ o.next ≤ g.val)
    (hkept : ∀ r < o.next, Idle upd ∨ r ∉ rest.map Entry.val → o₁.content r = o.content r)
    (hsub : ∀ r ∈ rest₁.map Entry.val, r ∈ rest.map Entry.val)
    (hvalue : ∀ a, g.hi < a → valueAt rest₁ a = valueAt rest a)
    (hharmless : Harmless upd d rest → Harmless upd d rest₁)
    (hcontent : Harmless upd d rest → ∀ e ∈ rest₁, o₁.content e.val = o.content e.val)
    (hd : Harmless upd d rest → o₁.content d = o.content d)
    (hgfilled : ∀ a, g.lo ≤ a → a ≤ g.hi →
      o₁.content g.val = upd g.lo (g.hi + 1) ((view o rest a).getD (o.content d)))
    (hgfound : ∀ a, g.lo ≤ a → a ≤ g.hi → ∀ r, valueAt rest a = some r → g.val = r)
    (hgfresh : ∀ a, g.lo ≤ a → a ≤ g.hi → valueAt rest a = none → o.next ≤ g.val)
    (hapart : Harmless upd d rest → Idle upd ∨ g.val ∉ rest₁.map Entry.val)
    (hunshared : Unshared rest → Unshared rest₁ ∧ g.val ∉ rest₁.map Entry.val) :
    Filled d upd start stop o rest o' (g :: mid) post := by
  have hview : Harmless upd d rest → ∀ a, g.hi < a → view o₁ rest₁ a = view o rest a := by
    intro hharm a ha
    rw [view_congr (hcontent hharm), view, view, hvalue a ha]
  have hlater : ∀ e ∈ mid, ∀ a, e.lo ≤ a → g.hi < a := by
    intro e he a ha
    have hbounds := h.tiles.bounds e he
    omega
  refine ⟨⟨hg, hne, h.tiles⟩, h.behind, h.ordered, hle.trans h.next_le, ?_, ?_, ?_, ?_, ?_, ?_, ?_,
    ?_⟩
  · intro r hr hcase
    rw [h.kept r (hr.trans_le hle) (hcase.imp id fun hnot hmem => hnot (hsub r hmem)),
      hkept r hr hcase]
  · intro hharm e he a hlo hhi
    rcases List.mem_cons.mp he with rfl | he
    · rw [h.kept e.val hgknown (hapart hharm), hgfilled a hlo hhi]
    · rw [h.filled (hharmless hharm) e he a hlo hhi, hview hharm a (hlater e he a hlo), hd hharm]
  · intro e he a hlo hhi r hr
    rcases List.mem_cons.mp he with rfl | he
    · exact hgfound a hlo hhi r hr
    · exact h.found e he a hlo hhi r (by rw [hvalue a (hlater e he a hlo), hr])
  · intro e he a hlo hhi hnone
    rcases List.mem_cons.mp he with rfl | he
    · exact hgfresh a hlo hhi hnone
    · exact hle.trans (h.fresh e he a hlo hhi (by rw [hvalue a (hlater e he a hlo), hnone]))
  · intro hharm a ha
    have hbound := h.tiles.le
    rw [h.after (hharmless hharm) a ha, hview hharm a (by omega)]
  · intro e he
    rw [List.cons_append] at he
    rcases List.mem_cons.mp he with rfl | he
    · exact hgknown.trans_le h.next_le
    · exact h.known e he
  · intro e he
    rw [List.cons_append] at he
    rcases List.mem_cons.mp he with rfl | he
    · exact hgorigin
    · rcases h.origin e he with hold | hnew
      · exact Or.inl (hsub _ hold)
      · exact Or.inr (hle.trans hnew)
  · intro hnodup
    obtain ⟨hnodup₁, hnot⟩ := hunshared hnodup
    rw [Unshared, List.cons_append, List.map_cons]
    refine List.nodup_cons.mpr ⟨?_, h.unshared hnodup₁⟩
    exact fun hmem => hnot (mem_of_origin h.origin hgknown hmem)

/-- How many rounds the entries that are left may take. -/
def rounds (start : Int) : List (Entry Ref) → Nat
  | [] => 0
  | e :: rest => 2 * rest.length + (if e.lo = start then 2 else 3)

theorem rounds_le (start : Int) (rest : List (Entry Ref)) :
    rounds start rest ≤ 2 * rest.length + 1 := by
  cases rest with
  | nil => exact Nat.zero_le _
  | cons e rest =>
    rw [rounds, List.length_cons]
    split <;> omega

theorem populateLoop_end (d : Ref) (stop : Int) {fuel : Nat} (hfuel : 0 < fuel) (pos : Nat)
    (st : State α) : populateLoop d upd stop fuel pos stop st = some ([], st) := by
  obtain ⟨n, rfl⟩ := Nat.exists_eq_add_one_of_ne_zero (Nat.ne_of_gt hfuel)
  rw [populateLoop, if_neg (lt_irrefl _), if_pos rfl]

theorem filled_nil {d : Ref} {start stop : Int} (h : start = stop) {o : Objects α}
    {rest : List (Entry Ref)} (hsane : Sane o rest) (hrest : ∀ e ∈ rest, start ≤ e.lo) :
    Filled d upd start stop o rest o [] rest :=
  { tiles := h
    behind := fun e he => h ▸ hrest e he
    ordered := hsane.ordered
    next_le := le_refl _
    kept := fun _ _ _ => rfl
    filled := by simp
    found := by simp
    fresh := by simp
    after := fun _ _ _ => rfl
    known := hsane.known
    origin := fun e he => Or.inl (List.mem_map_of_mem he)
    unshared := id }

theorem Filled.gap {d : Ref} {start boundary stop : Int} {o o' : Objects α}
    {rest mid post : List (Entry Ref)} (hsane : Sane o rest) (hd : d < o.next)
    (hlt : start < boundary) (hrest : ∀ e ∈ rest, boundary ≤ e.lo)
    (h : Filled d upd boundary stop ((o.copy d).2.modify o.next (upd start boundary)) rest o' mid
      post) :
    Filled d upd start stop o rest o' (⟨start, boundary - 1, o.next⟩ :: mid) post := by
  have hcontent : ∀ r < o.next,
      ((o.copy d).2.modify o.next (upd start boundary)).content r = o.content r := by
    intro r hr
    rw [modify_content_of_ne _ _ (Nat.ne_of_lt hr), copy_content_of_lt o d hr]
  have hnone : ∀ a, a ≤ boundary - 1 → valueAt rest a = none := by
    intro a ha
    refine valueAt_above fun e he => ?_
    have hle := hrest e he
    omega
  have hfresh := hsane.next_fresh
  have hnext : boundary - 1 + 1 = boundary := by omega
  have hrounds : Filled d upd ((⟨start, boundary - 1, o.next⟩ : Entry Ref).hi + 1) stop
      ((o.copy d).2.modify o.next (upd start boundary)) rest o' mid post := by
    dsimp only
    rw [hnext]
    exact h
  refine Filled.cons hrounds rfl (by dsimp only; omega) (Nat.le_succ _)
    (Nat.lt_succ_self _) (Or.inr (le_refl _)) (fun r hr _ => hcontent r hr) (fun _ hr => hr)
    (fun _ _ => rfl) id (fun _ e he => hcontent _ (hsane.known e he)) (fun _ => hcontent d hd) ?_ ?_
    (fun _ _ _ _ => le_refl _) (fun _ => Or.inr hfresh) (fun hnodup => ⟨hnodup, hfresh⟩)
  · intro a _ hhi
    rw [modify_content_self, copy_content_next, view, hnone a hhi, hnext]
    rfl
  · intro a _ hhi r hr
    rw [hnone a hhi] at hr
    cases hr

theorem Harmless.tail {d : Ref} {e : Entry Ref} {rest : List (Entry Ref)}
    (h : Harmless upd d (e :: rest)) : Harmless upd d rest :=
  h.imp id fun hun => ⟨(List.nodup_cons.mp hun.1).2, fun hmem => hun.2 (by simp [hmem])⟩

theorem Filled.existing {d : Ref} {stop : Int} {o o' : Objects α} {e : Entry Ref}
    {rest mid post : List (Entry Ref)} (hsane : Sane o (e :: rest))
    (h : Filled d upd (e.hi + 1) stop (o.modify e.val (upd e.lo (e.hi + 1))) rest o' mid post) :
    Filled d upd e.lo stop o (e :: rest) o' (e :: mid) post := by
  obtain ⟨hne, -, hafter⟩ := ordered_cons.mp hsane.ordered
  have hother : ∀ r, Idle upd ∨ r ≠ e.val →
      (o.modify e.val (upd e.lo (e.hi + 1))).content r = o.content r := by
    rintro r (hidle | hne)
    · exact modify_idle hidle ..
    · exact modify_content_of_ne _ _ hne
  have hhere : ∀ a, e.lo ≤ a → a ≤ e.hi → valueAt (e :: rest) a = some e.val := by
    intro a hlo hhi
    rw [valueAt_cons, if_pos ⟨hlo, hhi⟩]
  have hsep : Unshared (e :: rest) → e.val ∉ rest.map Entry.val := fun hnodup =>
    (List.nodup_cons.mp hnodup).1
  refine Filled.cons h rfl hne (le_refl _) (hsane.known e (by simp)) (Or.inl (by simp)) ?_
    (fun r hr => by simp only [List.map_cons, List.mem_cons]; exact Or.inr hr)
      ?_ Harmless.tail ?_ ?_ ?_ ?_ ?_ ?_ ?_
  · intro r _ hcase
    refine hother r (hcase.imp id fun hnot heq => hnot ?_)
    rw [heq]
    simp
  · intro a ha
    rw [valueAt_cons, if_neg (by omega)]
  · intro hharm f hf
    refine hother _ (hharm.imp id fun hun heq => hsep hun.1 ?_)
    rw [← heq]
    exact List.mem_map_of_mem hf
  · intro hharm
    refine hother d (hharm.imp id fun hun heq => hun.2 ?_)
    rw [heq]
    simp
  · intro a hlo hhi
    rw [modify_content_self, view, hhere a hlo hhi]
    rfl
  · intro a hlo hhi r hr
    rw [hhere a hlo hhi] at hr
    exact Option.some.inj hr
  · intro a hlo hhi hnone
    rw [hhere a hlo hhi] at hnone
    cases hnone
  · intro hharm
    exact hharm.imp id fun hun => hsep hun.1
  · intro hnodup
    exact ⟨(List.nodup_cons.mp hnodup).2, hsep hnodup⟩

theorem Harmless.refine {d : Ref} {o o₁ : Objects α} {rest rest₁ : List (Entry Ref)}
    (h : Harmless upd d rest) (href : Refines o rest o₁ rest₁) (hd : d < o.next) :
    Harmless upd d rest₁ := by
  refine h.imp id fun hun => ⟨href.unshared hun.1, fun hmem => ?_⟩
  exact hun.2 (mem_of_origin href.origin hd hmem)

theorem Filled.refine {d : Ref} {start stop : Int} {o o₁ o' : Objects α}
    {rest rest₁ mid post : List (Entry Ref)} (h : Filled d upd start stop o₁ rest₁ o' mid post)
    (href : Refines o rest o₁ rest₁) (hd : d < o.next)
    (hvalue : ∀ a, a < stop → valueAt rest₁ a = valueAt rest a) :
    Filled d upd start stop o rest o' mid post := by
  refine ⟨h.tiles, h.behind, h.ordered, href.next_le.trans h.next_le, ?_, ?_, ?_, ?_, ?_, h.known,
    origin_trans href.origin href.next_le h.origin, h.unshared ∘ href.unshared⟩
  · intro r hr hcase
    rw [h.kept r (hr.trans_le href.next_le), href.content_eq r hr]
    exact hcase.imp id fun hnot hmem => hnot (mem_of_origin href.origin hr hmem)
  · intro hharm e he a hlo hhi
    rw [h.filled (hharm.refine href hd) e he a hlo hhi, href.view_eq, href.content_eq d hd]
  · intro e he a hlo hhi r hr
    have hbounds := h.tiles.bounds e he
    exact h.found e he a hlo hhi r (by rw [hvalue a (by omega), hr])
  · intro e he a hlo hhi hnone
    have hbounds := h.tiles.bounds e he
    exact href.next_le.trans (h.fresh e he a hlo hhi (by rw [hvalue a (by omega), hnone]))
  · intro hharm a ha
    rw [h.after (hharm.refine href hd) a ha, href.view_eq]

theorem Filled.over {d : Ref} {stop : Int} {o : Objects α} {e : Entry Ref} {rest : List (Entry Ref)}
    (hsane : Sane o (e :: rest)) (hd : d < o.next) (hlt : e.lo < stop) (hover : stop ≤ e.hi) :
    Filled d upd e.lo stop o (e :: rest) ((o.copy e.val).2.modify e.val (upd e.lo stop))
      [⟨e.lo, stop - 1, e.val⟩] (⟨stop, e.hi, o.next⟩ :: rest) := by
  have hsane₀ : Sane o ([] ++ e :: rest) := hsane
  have href : Refines o (e :: rest) (o.copy e.val).2
      (⟨e.lo, stop - 1, e.val⟩ :: ⟨stop, e.hi, o.next⟩ :: rest) :=
    refines_split hsane₀ hlt hover
  have hend : stop - 1 + 1 = stop := by omega
  obtain ⟨-, htail, hbelow⟩ := ordered_cons.mp href.sane.ordered
  have hfirst : Filled d upd e.lo (stop - 1 + 1) (o.copy e.val).2
      (⟨e.lo, stop - 1, e.val⟩ :: ⟨stop, e.hi, o.next⟩ :: rest)
      ((o.copy e.val).2.modify e.val (upd e.lo (stop - 1 + 1))) [⟨e.lo, stop - 1, e.val⟩]
      (⟨stop, e.hi, o.next⟩ :: rest) :=
    Filled.existing href.sane
      (filled_nil rfl ⟨htail, fun f hf => href.sane.known f (by simp [hf])⟩ hbelow)
  rw [hend] at hfirst
  refine hfirst.refine href hd ?_
  intro a ha
  rw [valueAt_cons, valueAt_cons, valueAt_cons]
  dsimp only
  by_cases hlow : e.lo ≤ a
  · rw [if_pos ⟨hlow, by omega⟩, if_pos ⟨hlow, by omega⟩]
  · rw [if_neg (by omega), if_neg (by omega), if_neg (by omega)]

theorem insert_seam (done rest : List (Entry Ref)) (g : Entry Ref) :
    Lists.mk (((done ++ rest).map Entry.lo).insertIdx done.length g.lo)
        (((done ++ rest).map Entry.hi).insertIdx done.length g.hi)
        (((done ++ rest).map Entry.val).insertIdx done.length g.val) =
      ofEntries (done ++ g :: rest) := by
  have hseam : ∀ {β : Type} (f : Entry Ref → β),
      ((done ++ rest).map f).insertIdx done.length (f g) = (done ++ g :: rest).map f := by
    intro β f
    have hinsert := insertIdx_seam (done.map f) (rest.map f) (f g)
    rwa [List.length_map, ← List.map_append, ← List.map_cons, ← List.map_append] at hinsert
  rw [hseam Entry.lo, hseam Entry.hi, hseam Entry.val]
  rfl

theorem populateLoop_spec (upd : Int → Int → α → α) (d : Ref) (stop : Int) :
    ∀ (fuel : Nat) (done rest : List (Entry Ref))
    (start : Int) (o : Objects α), Sane o rest → start ≤ stop → (∀ e ∈ rest, start ≤ e.lo) →
    d < o.next → rounds start rest < fuel →
    ∃ mid post o', populateLoop d upd stop fuel done.length start ⟨ofEntries (done ++ rest), o⟩ =
        some (mid, ⟨ofEntries (done ++ (mid ++ post)), o'⟩) ∧
      Filled d upd start stop o rest o' mid post := by
  intro fuel
  induction fuel with
  | zero =>
    intro done rest start o _ _ _ _ hfuel
    exact absurd hfuel (Nat.not_lt_zero _)
  | succ fuel ih =>
    intro done rest start o hsane hle hrest hd hfuel
    rcases eq_or_lt_of_le hle with heq | hlt
    · subst heq
      exact ⟨[], rest, o, populateLoop_end d start (Nat.succ_pos _) _ _, filled_nil rfl hsane hrest⟩
    rw [populateLoop, if_pos hlt]
    rcases rest with _ | ⟨e, rest⟩
    · -- behind the last range: append, and leave the loop
      rw [if_pos (by simp)]
      refine ⟨[⟨start, stop - 1, o.next⟩], [], (o.copy d).2.modify o.next (upd start stop), ?_,
        Filled.gap hsane hd hlt (by simp) (filled_nil rfl ⟨ordered_nil, by simp⟩ (by simp))⟩
      simp [ofEntries, Objects.copy, Objects.alloc]
    rw [if_neg (by simp)]
    simp only [ofEntries_starts, ofEntries_ends, ofEntries_values, getElem_map_seam,
      Option.bind_eq_bind, Option.bind_some]
    have hlo := hrest e (by simp)
    obtain ⟨hne, hordered, hafter⟩ := ordered_cons.mp hsane.ordered
    have hbehind : ∀ f ∈ rest, e.hi + 1 ≤ f.lo := hafter
    rw [if_neg (not_lt.mpr hlo)]
    by_cases hgap : e.lo > start
    · rw [if_pos hgap]
      rw [rounds, if_neg (ne_of_gt hgap)] at hfuel
      have hsane' : ∀ b, Sane ((o.copy d).2.modify o.next (upd start b)) (e :: rest) := fun b =>
        ⟨hsane.ordered, fun f hf => Nat.lt_succ_of_lt (hsane.known f hf)⟩
      have hfollow : ∀ f ∈ e :: rest, e.lo ≤ f.lo := by
        intro f hf
        rcases List.mem_cons.mp hf with rfl | hf
        · exact le_refl _
        · have hle := hbehind f hf
          omega
      rcases le_or_gt stop e.lo with hstop | hstop
      · -- the gap reaches to the end of the zone
        rw [min_eq_left hstop, populateLoop_end d stop (by omega)]
        refine ⟨[⟨start, stop - 1, o.next⟩], e :: rest, _, ?_,
          Filled.gap hsane hd hlt (fun f hf => hstop.trans (hfollow f hf))
            (filled_nil rfl (hsane' stop) (fun f hf => hstop.trans (hfollow f hf)))⟩
        have hinsert := insert_seam done (e :: rest) ⟨start, stop - 1, o.next⟩
        dsimp only at hinsert
        rw [Objects.copy, Objects.alloc, hinsert]
        rfl
      · rw [min_eq_right hstop.le]
        have hinsert := insert_seam done (e :: rest) ⟨start, e.lo - 1, o.next⟩
        dsimp only at hinsert
        obtain ⟨mid, post, o', hloop, hfilled⟩ := ih (done ++ [⟨start, e.lo - 1, o.next⟩])
          (e :: rest) e.lo _ (hsane' e.lo) hstop.le hfollow (Nat.lt_succ_of_lt hd)
          (by rw [rounds, if_pos rfl]; omega)
        rw [List.length_append, List.length_singleton, List.append_assoc, List.append_assoc,
          List.singleton_append, List.singleton_append] at hloop
        refine ⟨⟨start, e.lo - 1, o.next⟩ :: mid, post, o', ?_,
          Filled.gap hsane hd hgap hfollow hfilled⟩
        rw [Objects.copy, Objects.alloc, hinsert]
        change ((populateLoop d upd stop fuel (done.length + 1) e.lo
          ⟨_, (o.copy d).2.modify o.next (upd start e.lo)⟩).bind _) = _
        rw [hloop]
        rfl
    · rw [if_neg hgap]
      have hstart : e.lo = start := by omega
      rw [rounds, if_pos hstart] at hfuel
      subst hstart
      by_cases hcut : e.hi > stop - 1
      · -- the entry reaches over the end of the zone
        have hend : stop - 1 + 1 = stop := by omega
        rw [if_pos hcut, split_seam]
        simp only [Option.bind_some, ofEntries_ends, ofEntries_values, getElem_map_seam, hend]
        rw [populateLoop_end d stop (by omega)]
        exact ⟨[⟨e.lo, stop - 1, e.val⟩], ⟨stop, e.hi, o.next⟩ :: rest, _, rfl,
          Filled.over hsane hd hlt (by omega)⟩
      · rw [if_neg hcut]
        have hrounds := rounds_le (e.hi + 1) rest
        obtain ⟨mid, post, o', hloop, hfilled⟩ := ih (done ++ [e]) rest (e.hi + 1)
          (o.modify e.val (upd e.lo (e.hi + 1)))
          ⟨hordered, fun f hf => hsane.known f (by simp [hf])⟩ (by omega) hbehind hd (by omega)
        rw [List.length_append, List.length_singleton, List.append_assoc, List.append_assoc,
          List.singleton_append, List.singleton_append] at hloop
        refine ⟨e :: mid, post, o', ?_, Filled.existing hsane hfilled⟩
        rw [hloop]
        rfl

theorem Harmless.suffix {d : Ref} {pre rest : List (Entry Ref)} (h : Harmless upd d (pre ++ rest)) :
    Harmless upd d rest := by
  refine h.imp id fun hun => ⟨(unshared_append.mp hun.1).2.1, fun hmem => hun.2 ?_⟩
  rw [List.map_append]
  exact List.mem_append_right _ hmem

theorem populate_spec (upd : Int → Int → α → α) {o : Objects α} {es : List (Entry Ref)}
    (h : Sane o es) {zone : Zone} (hzone : zone.Nonempty) (hlen : zone.Countable) {d : Ref}
    (hd : d < o.next) :
    ∃ pre rest o₁ mid post o', State.populate ⟨ofEntries es, o⟩ zone d upd =
        some (mid, ⟨ofEntries (pre ++ (mid ++ post)), o'⟩) ∧
      Refines o es o₁ (pre ++ rest) ∧ (∀ e ∈ pre, e.hi < zone.start) ∧
      (∀ e ∈ rest, zone.start ≤ e.lo) ∧
      Filled d upd zone.start zone.stop o₁ rest o' mid post := by
  obtain ⟨pre, rest, o₁, hleft, href, hpre, hrest⟩ := splitLeft_spec h zone.start
  have hsane : Sane o₁ rest :=
    ⟨(ordered_append.mp href.sane.ordered).2.1, fun e he => href.sane.known e (by simp [he])⟩
  have hrounds := rounds_le zone.start rest
  obtain ⟨mid, post, o', hloop, hfilled⟩ := populateLoop_spec upd d zone.stop
    (2 * rest.length + 2) pre rest zone.start o₁ hsane (le_of_lt hzone) hrest
    (hd.trans_le href.next_le) (by omega)
  refine ⟨pre, rest, o₁, mid, post, o', ?_, href, hpre, hrest, hfilled⟩
  have hlength : (pre ++ rest).length - pre.length = rest.length := by simp
  unfold State.populate
  rw [if_neg (not_le.mpr hzone), if_neg (not_not.mpr hlen), hleft]
  simp only [Option.bind_eq_bind, Option.bind_some, ofEntries_starts, List.length_map, hlength,
    hloop]

end Populate

end MiniHaywire.RangeMap

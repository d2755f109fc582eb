import Mathlib.Tactic

/-!
# Ordered lists of intervals

Entries with an interval of integers, both ends included, and a value, in
ascending order.  Such a list is a partial function on the integers.  It can be cut
at any address into what ends before it and what does not, and a stretch of
entries without gaps tiles an interval.
-/

namespace MiniHaywire.Intervals

universe u

variable {V : Type u}

structure Entry (V : Type u) where
  lo : Int
  hi : Int
  val : V
deriving DecidableEq, Repr

def valueAt (es : List (Entry V)) (a : Int) : Option V :=
  (es.find? fun e => e.lo ≤ a ∧ a ≤ e.hi).map Entry.val

/-- No interval is empty, and each ends before the next one starts. -/
structure Ordered (es : List (Entry V)) : Prop where
  nonempty : ∀ e ∈ es, e.lo ≤ e.hi
  apart : es.Pairwise fun e f => e.hi < f.lo

/-- The entries cover `[a, b)` without gaps. -/
def Tiles : Int → Int → List (Entry V) → Prop
  | a, b, [] => a = b
  | a, b, e :: es => e.lo = a ∧ e.lo ≤ e.hi ∧ Tiles (e.hi + 1) b es

/-! ### Values -/

theorem valueAt_cons (e : Entry V) (es : List (Entry V)) (a : Int) :
    valueAt (e :: es) a = if e.lo ≤ a ∧ a ≤ e.hi then some e.val else valueAt es a := by
  unfold valueAt
  by_cases h : e.lo ≤ a ∧ a ≤ e.hi
  · rw [List.find?_cons_of_pos (by simpa using h), if_pos h]
    rfl
  · rw [List.find?_cons_of_neg (by simpa using h), if_neg h]

theorem valueAt_append (xs ys : List (Entry V)) (a : Int) :
    valueAt (xs ++ ys) a = (valueAt xs a).or (valueAt ys a) := by
  induction xs with
  | nil => rfl
  | cons x xs ih =>
    rw [List.cons_append, valueAt_cons, valueAt_cons, ih]
    split <;> rfl

theorem valueAt_eq_none {es : List (Entry V)} {a : Int}
    (h : ∀ e ∈ es, ¬ (e.lo ≤ a ∧ a ≤ e.hi)) : valueAt es a = none := by
  unfold valueAt
  rw [Option.map_eq_none_iff, List.find?_eq_none]
  intro e he
  simpa using h e he

theorem valueAt_below {es : List (Entry V)} {a : Int} (h : ∀ e ∈ es, e.hi < a) :
    valueAt es a = none :=
  valueAt_eq_none fun e he => by
    have hlt := h e he
    omega

theorem valueAt_above {es : List (Entry V)} {a : Int} (h : ∀ e ∈ es, a < e.lo) :
    valueAt es a = none :=
  valueAt_eq_none fun e he => by
    have hlt := h e he
    omega

theorem mem_of_valueAt {es : List (Entry V)} {a : Int} {v : V} (h : valueAt es a = some v) :
    ∃ e ∈ es, e.lo ≤ a ∧ a ≤ e.hi ∧ e.val = v := by
  obtain ⟨e, he, rfl⟩ := Option.map_eq_some_iff.mp h
  have hcover : e.lo ≤ a ∧ a ≤ e.hi := by simpa using List.find?_some he
  exact ⟨e, List.mem_of_find?_eq_some he, hcover.1, hcover.2, rfl⟩

/-! ### Order -/

theorem ordered_nil : Ordered ([] : List (Entry V)) := ⟨by simp, List.Pairwise.nil⟩

theorem ordered_append {xs ys : List (Entry V)} :
    Ordered (xs ++ ys) ↔ Ordered xs ∧ Ordered ys ∧ ∀ e ∈ xs, ∀ f ∈ ys, e.hi < f.lo := by
  constructor
  · intro h
    obtain ⟨hxs, hys, hseam⟩ := List.pairwise_append.mp h.apart
    exact ⟨⟨fun e he => h.nonempty e (by simp [he]), hxs⟩,
      ⟨fun e he => h.nonempty e (by simp [he]), hys⟩, hseam⟩
  · rintro ⟨hxs, hys, hseam⟩
    refine ⟨?_, List.pairwise_append.mpr ⟨hxs.apart, hys.apart, hseam⟩⟩
    intro e he
    rcases List.mem_append.mp he with hx | hy
    · exact hxs.nonempty e hx
    · exact hys.nonempty e hy

theorem ordered_cons {e : Entry V} {es : List (Entry V)} :
    Ordered (e :: es) ↔ e.lo ≤ e.hi ∧ Ordered es ∧ ∀ f ∈ es, e.hi < f.lo := by
  rw [← List.singleton_append, ordered_append]
  constructor
  · rintro ⟨he, hes, hseam⟩
    exact ⟨he.nonempty e (by simp), hes, hseam e (by simp)⟩
  · rintro ⟨he, hes, hseam⟩
    refine ⟨⟨by simpa using he, by simp⟩, hes, ?_⟩
    intro f hf
    rw [List.mem_singleton.mp hf]
    exact hseam

theorem Ordered.valueAt_mem {es : List (Entry V)} (h : Ordered es) {e : Entry V} (he : e ∈ es)
    {a : Int} (hlo : e.lo ≤ a) (hhi : a ≤ e.hi) : valueAt es a = some e.val := by
  induction es with
  | nil => cases he
  | cons f es ih =>
    obtain ⟨-, hes, hseam⟩ := ordered_cons.mp h
    rw [valueAt_cons]
    rcases List.mem_cons.mp he with rfl | hmem
    · rw [if_pos ⟨hlo, hhi⟩]
    · have hlt := hseam e hmem
      rw [if_neg (by omega)]
      exact ih hes hmem

theorem Ordered.cut {es : List (Entry V)} (h : Ordered es) (b : Int) :
    ∃ xs ys, es = xs ++ ys ∧ (∀ e ∈ xs, e.hi < b) ∧ ∀ e ∈ ys, b ≤ e.hi := by
  induction es with
  | nil => exact ⟨[], [], rfl, by simp, by simp⟩
  | cons e es ih =>
    obtain ⟨hne, hes, hseam⟩ := ordered_cons.mp h
    by_cases hlt : e.hi < b
    · obtain ⟨xs, ys, rfl, hxs, hys⟩ := ih hes
      refine ⟨e :: xs, ys, rfl, ?_, hys⟩
      intro f hf
      rcases List.mem_cons.mp hf with rfl | hf
      · exact hlt
      · exact hxs f hf
    · refine ⟨[], e :: es, rfl, by simp, ?_⟩
      intro f hf
      rcases List.mem_cons.mp hf with rfl | hf
      · omega
      · have hlo := hseam f hf
        have hhi := hes.nonempty f hf
        omega

/-! ### Splitting an entry in two -/

section Split

variable {e : Entry V} {b : Int}

theorem Ordered.split {pre post : List (Entry V)} (h : Ordered (pre ++ e :: post)) (hlo : e.lo < b)
    (hhi : b ≤ e.hi) (v w : V) :
    Ordered (pre ++ ⟨e.lo, b - 1, v⟩ :: ⟨b, e.hi, w⟩ :: post) := by
  obtain ⟨hpre, hrest, hseam⟩ := ordered_append.mp h
  obtain ⟨-, hpost, hafter⟩ := ordered_cons.mp hrest
  refine ordered_append.mpr ⟨hpre, ordered_cons.mpr ⟨?_, ordered_cons.mpr ⟨hhi, hpost, hafter⟩, ?_⟩,
    ?_⟩
  · dsimp only
    omega
  · intro f hf
    rcases List.mem_cons.mp hf with rfl | hf
    · dsimp only
      omega
    · have hlt := hafter f hf
      dsimp only
      omega
  · intro f hf g hg
    have hlt := hseam f hf e (by simp)
    rcases List.mem_cons.mp hg with rfl | hg
    · exact hlt
    · rcases List.mem_cons.mp hg with rfl | hg
      · dsimp only
        omega
      · exact hseam f hf g (by simp [hg])

theorem valueAt_split (pre post : List (Entry V)) (hlo : e.lo < b) (hhi : b ≤ e.hi) (w : V)
    (a : Int) :
    valueAt (pre ++ ⟨e.lo, b - 1, e.val⟩ :: ⟨b, e.hi, w⟩ :: post) a = valueAt (pre ++ e :: post) a ∨
      valueAt (pre ++ e :: post) a = some e.val ∧
        valueAt (pre ++ ⟨e.lo, b - 1, e.val⟩ :: ⟨b, e.hi, w⟩ :: post) a = some w := by
  rw [valueAt_append, valueAt_append, valueAt_cons, valueAt_cons, valueAt_cons]
  dsimp only
  cases valueAt pre a with
  | some v => exact Or.inl rfl
  | none =>
    rw [Option.none_or, Option.none_or]
    by_cases hleft : e.lo ≤ a ∧ a ≤ b - 1
    · rw [if_pos hleft, if_pos (by omega)]
      exact Or.inl rfl
    · rw [if_neg hleft]
      by_cases hright : b ≤ a ∧ a ≤ e.hi
      · rw [if_pos hright, if_pos (by omega)]
        exact Or.inr ⟨rfl, rfl⟩
      · rw [if_neg hright, if_neg (by omega)]
        exact Or.inl rfl

end Split

/-! ### Tilings -/

section Tiles

variable {es : List (Entry V)}

theorem Tiles.le : ∀ {a b : Int}, Tiles a b es → a ≤ b := by
  induction es with
  | nil =>
    intro a b h
    exact le_of_eq h
  | cons e es ih =>
    rintro a b ⟨rfl, hne, hrest⟩
    have hle := ih hrest
    omega

theorem Tiles.bounds : ∀ {a b : Int}, Tiles a b es → ∀ e ∈ es, a ≤ e.lo ∧ e.hi < b := by
  induction es with
  | nil =>
    intro a b _ e he
    cases he
  | cons f es ih =>
    rintro a b ⟨rfl, hne, hrest⟩ e he
    have hle := hrest.le
    rcases List.mem_cons.mp he with rfl | hmem
    · omega
    · have hbounds := ih hrest e hmem
      omega

theorem Tiles.ordered : ∀ {a b : Int}, Tiles a b es → Ordered es := by
  induction es with
  | nil =>
    intro a b _
    exact ordered_nil
  | cons e es ih =>
    rintro a b ⟨rfl, hne, hrest⟩
    refine ordered_cons.mpr ⟨hne, ih hrest, ?_⟩
    intro f hf
    have hbounds := hrest.bounds f hf
    omega

theorem Tiles.exists_mem : ∀ {a b : Int}, Tiles a b es → ∀ x, a ≤ x → x < b →
    ∃ e ∈ es, e.lo ≤ x ∧ x ≤ e.hi := by
  induction es with
  | nil =>
    rintro a b h x hax hxb
    have heq : a = b := h
    omega
  | cons e es ih =>
    rintro a b ⟨rfl, hne, hrest⟩ x hax hxb
    by_cases hx : x ≤ e.hi
    · exact ⟨e, by simp, hax, hx⟩
    · obtain ⟨f, hf, hcover⟩ := ih hrest x (by omega) hxb
      exact ⟨f, by simp [hf], hcover⟩

end Tiles

end MiniHaywire.Intervals

import Mathlib.Data.List.Infix
import Mathlib.Tactic

/-!
# Searching for a marker word

A framed stream is resynchronised by looking for a fixed marker word.  What
makes this reliable is a property of the marker alone: no proper prefix of it
is also a suffix (`Unbordered`).  Then text that does not contain the marker
cannot contribute to an occurrence of it either, even when the text ends in the
first symbols of the marker (`Free.eq_nil_of_prefix`), and every searcher that
looks at one position after the other stops exactly at the frame.

Nothing here depends on the alphabet or on the length of the marker.
-/

namespace MiniHaywire.Marker

variable {α : Type*} {m : List α}

/-- The marker `m` does not occur in `l`. -/
def Free (m l : List α) : Prop := ¬ m <:+: l

instance [DecidableEq α] (m l : List α) : Decidable (Free m l) :=
  inferInstanceAs (Decidable (¬ m <:+: l))

/-- No proper non-empty prefix of `m` is also a suffix of it. -/
def Unbordered (m : List α) : Prop :=
  ∀ k < m.length, 0 < k → m.take k ≠ m.drop (m.length - k)

instance [DecidableEq α] (m : List α) : Decidable (Unbordered m) :=
  inferInstanceAs (Decidable (∀ k < m.length, 0 < k → m.take k ≠ m.drop (m.length - k)))

theorem Free.of_append_right {x l : List α} (h : Free m (x ++ l)) : Free m l := by
  intro hl
  exact h (hl.trans (List.suffix_append x l).isInfix)

theorem Free.of_cons {a : α} {l : List α} (h : Free m (a :: l)) : Free m l :=
  Free.of_append_right (x := [a]) h

theorem Free.not_prefix {l : List α} (h : Free m l) : ¬ m <+: l :=
  fun hp => h hp.isInfix

/-- A symbol that does not start the marker can be put in front of marker-free
    text. -/
theorem Free.cons_of_ne {a b : α} {m' l : List α} (hne : b ≠ a) (h : Free (a :: m') l) :
    Free (a :: m') (b :: l) := by
  intro hin
  rcases List.infix_cons_iff.mp hin with hpre | hl
  · obtain ⟨t, ht⟩ := hpre
    simp only [List.cons_append, List.cons.injEq] at ht
    exact hne ht.1.symm
  · exact h hl

theorem Free.append_of_forall_ne {a : α} {m' x l : List α} (hne : ∀ b ∈ x, b ≠ a)
    (h : Free (a :: m') l) : Free (a :: m') (x ++ l) := by
  induction x with
  | nil => exact h
  | cons b x ih =>
    exact Free.cons_of_ne (hne b (by simp)) (ih (fun c hc => hne c (by simp [hc])))

/-- **Marker-free text cannot hide the frame behind it.**  If the marker stands
    at the front of `p ++ m ++ r` with `p` marker-free, then `p` is empty: an
    occurrence that starts inside `p` would have to overlap the marker behind
    it, and an unbordered word does not overlap itself. -/
theorem Free.eq_nil_of_prefix {p r : List α} (hu : Unbordered m) (hp : Free m p)
    (h : m <+: p ++ (m ++ r)) : p = [] := by
  obtain ⟨t, ht⟩ := h
  by_contra hne
  have hpos : 0 < p.length := List.length_pos_iff.mpr hne
  rcases Nat.lt_or_ge p.length m.length with hlt | hge
  · have hdrop : m.drop p.length ++ t = m ++ r := by
      have := congrArg (List.drop p.length) ht
      rwa [List.drop_append_of_le_length (by omega), List.drop_left] at this
    have htake : m.take (m.length - p.length) = m.drop p.length := by
      have := congrArg (List.take (m.length - p.length)) hdrop
      rw [List.take_append_of_le_length (by simp),
        List.take_append_of_le_length (by omega)] at this
      rw [← this, List.take_of_length_le (by simp)]
    apply hu (m.length - p.length) (by omega) (by omega)
    rw [htake]
    congr 1
    omega
  · have hpre : m = p.take m.length := by
      have := congrArg (List.take m.length) ht
      rwa [List.take_left, List.take_append_of_le_length hge] at this
    apply hp
    rw [hpre]
    exact (List.take_prefix _ _).isInfix

end MiniHaywire.Marker

import Mathlib.Tactic

/-!
# Items laid end to end

A list of items with a length each covers an interval: the first item starts at a
given position, every other one where the item before it ends.  Items of positive
length have positions of their own, and a stretch of the list can be exchanged for
another one of the same length without moving what stands around it.
-/

namespace MiniHaywire.Tiling

variable {α : Type*} (len : α → Int)

def span (xs : List α) : Int := (xs.map len).sum

def placed : Int → List α → List (Int × α)
  | _, [] => []
  | pos, x :: xs => (pos, x) :: placed (pos + len x) xs

@[simp] theorem span_nil : span len [] = 0 := rfl

@[simp] theorem span_cons (x : α) (xs : List α) : span len (x :: xs) = len x + span len xs := by
  simp [span]

@[simp] theorem span_append (xs ys : List α) :
    span len (xs ++ ys) = span len xs + span len ys := by
  simp [span]

@[simp] theorem placed_nil (pos : Int) : placed len pos [] = [] := rfl

@[simp] theorem placed_cons (pos : Int) (x : α) (xs : List α) :
    placed len pos (x :: xs) = (pos, x) :: placed len (pos + len x) xs := rfl

theorem placed_append (xs ys : List α) : ∀ pos,
    placed len pos (xs ++ ys) = placed len pos xs ++ placed len (pos + span len xs) ys := by
  induction xs with
  | nil =>
    intro pos
    simp
  | cons x xs ih =>
    intro pos
    simp only [List.cons_append, placed_cons, ih, span_cons, Int.add_assoc]

theorem mem_placed {xs : List α} {p : Int} {x : α} : ∀ {pos : Int},
    (p, x) ∈ placed len pos xs ↔ ∃ pre post, xs = pre ++ x :: post ∧ p = pos + span len pre := by
  intro pos
  constructor
  · intro h
    induction xs generalizing pos with
    | nil => exact absurd h List.not_mem_nil
    | cons y ys ih =>
      rw [placed_cons] at h
      rcases List.mem_cons.mp h with heq | hmem
      · cases heq
        exact ⟨[], ys, rfl, by simp⟩
      · obtain ⟨pre, post, rfl, rfl⟩ := ih hmem
        exact ⟨y :: pre, post, rfl, by rw [span_cons, Int.add_assoc]⟩
  · rintro ⟨pre, post, rfl, rfl⟩
    rw [placed_append, placed_cons]
    simp

section Positive

variable {len} {xs : List α}

theorem span_nonneg (h : ∀ x ∈ xs, 0 ≤ len x) : 0 ≤ span len xs := by
  apply List.sum_nonneg
  intro n hn
  obtain ⟨x, hx, rfl⟩ := List.mem_map.mp hn
  exact h x hx

theorem placed_bounds (h : ∀ x ∈ xs, 0 ≤ len x) {pos p : Int} {x : α}
    (hx : (p, x) ∈ placed len pos xs) : pos ≤ p ∧ p + len x ≤ pos + span len xs := by
  obtain ⟨pre, post, rfl, rfl⟩ := (mem_placed len).mp hx
  have hpre : 0 ≤ span len pre := span_nonneg fun y hy => h y (by simp [hy])
  have hpost : 0 ≤ span len post := span_nonneg fun y hy => h y (by simp [hy])
  rw [span_append, span_cons]
  omega

theorem placed_pairwise (h : ∀ x ∈ xs, 0 ≤ len x) : ∀ pos : Int,
    (placed len pos xs).Pairwise fun a b => a.1 + len a.2 ≤ b.1 := by
  induction xs with
  | nil =>
    intro pos
    exact List.Pairwise.nil
  | cons x xs ih =>
    intro pos
    have hrest : ∀ y ∈ xs, 0 ≤ len y := fun y hy => h y (by simp [hy])
    rw [placed_cons]
    refine List.pairwise_cons.mpr ⟨?_, ih hrest _⟩
    rintro ⟨q, y⟩ hy
    exact (placed_bounds hrest hy).1

end Positive

end MiniHaywire.Tiling

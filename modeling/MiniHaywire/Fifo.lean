import MiniHaywire.Run

/-!
# Bounded queues

A first-in first-out queue of at most `cap` items.  A write takes as many of the
offered items as there is room for and says how many; a read takes the oldest
items.  Over a run the items accepted are exactly the items returned followed by
the items still queued (`Fifo.run_conserves`).
-/

namespace MiniHaywire

/-- A queue of at most `cap` items, the oldest first. -/
structure Fifo (α : Type*) (cap : Nat) where
  items : List α
  bound : items.length ≤ cap

namespace Fifo

variable {α : Type*} {cap : Nat}

def empty (cap : Nat) : Fifo α cap := ⟨[], Nat.zero_le cap⟩

def room (q : Fifo α cap) : Nat := cap - q.items.length

/-- Append as many of the items as fit, and say how many that were. -/
def write (xs : List α) (q : Fifo α cap) : Nat × Fifo α cap :=
  (min xs.length q.room,
    ⟨q.items ++ xs.take (min xs.length q.room), by
      have := q.bound
      simp only [List.length_append, List.length_take, room]
      omega⟩)

/-- Take the `n` oldest items, or all of them if there are fewer. -/
def read (n : Nat) (q : Fifo α cap) : List α × Fifo α cap :=
  (q.items.take (min n q.items.length),
    ⟨q.items.drop (min n q.items.length), by
      have := q.bound
      simp only [List.length_drop]
      omega⟩)

inductive Call (α : Type*)
  | write (xs : List α)
  | read (n : Nat)

inductive Reply (α : Type*)
  | wrote (n : Nat)
  | got (xs : List α)
deriving DecidableEq

def step : Call α → Fifo α cap → Reply α × Fifo α cap
  | .write xs, q => ((write xs q).1 |> .wrote, (write xs q).2)
  | .read n, q => ((read n q).1 |> .got, (read n q).2)

/-- The items the calls handed over and the replies acknowledged. -/
def accepted : List (Call α) → List (Reply α) → List α
  | .write xs :: cs, .wrote n :: rs => xs.take n ++ accepted cs rs
  | _ :: cs, _ :: rs => accepted cs rs
  | _, _ => []

def returned : List (Reply α) → List α
  | [] => []
  | .got xs :: rs => xs ++ returned rs
  | .wrote _ :: rs => returned rs

theorem run_conserves (cs : List (Call α)) (q : Fifo α cap) :
    q.items ++ accepted cs (run step cs q).1 =
      returned (run step cs q).1 ++ (run step cs q).2.items := by
  induction cs generalizing q with
  | nil => simp [accepted, returned]
  | cons c cs ih =>
    rw [run_cons]
    cases c with
    | write xs =>
      simp only [step, accepted, returned]
      rw [← ih]
      simp only [write, List.append_assoc]
    | read n =>
      simp only [step, accepted, returned]
      rw [List.append_assoc, ← ih, ← List.append_assoc]
      simp only [read, List.take_append_drop]

end Fifo

end MiniHaywire

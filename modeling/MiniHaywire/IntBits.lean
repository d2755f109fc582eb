import Mathlib.Data.Int.Bitwise
import Mathlib.Tactic

/-!
# Bits of unbounded integers

Integers in two's complement without a width, as in Python: a negative number has
infinitely many ones.  A number is determined by its bits (`eq_of_testBit_eq`).  A
stretch of `w` bits from bit `lsb` on can be read (`slice`) and replaced (`splice`);
what these do to each bit is said once, and their laws follow bit by bit.
-/

namespace MiniHaywire.IntBits

/-! ### Bits of the operators -/

theorem testBit_shiftRight (v : Int) (n i : Nat) : (v >>> n).testBit i = v.testBit (n + i) := by
  cases v with
  | ofNat m => exact Nat.testBit_shiftRight m
  | negSucc m => exact congrArg (!·) (Nat.testBit_shiftRight m)

theorem testBit_shiftLeft (v : Int) (n i : Nat) :
    (v <<< n).testBit i = (decide (n ≤ i) && v.testBit (i - n)) := by
  have hpos := Nat.two_pow_pos n
  cases v with
  | ofNat m =>
    have hshift : Int.ofNat m <<< n = Int.ofNat (m <<< n) := by
      rw [Int.shiftLeft_eq, Nat.shiftLeft_eq]
      rfl
    rw [hshift]
    exact Nat.testBit_shiftLeft m
  | negSucc m =>
    -- the complement has ones below bit `n`
    have hshift : Int.negSucc m <<< n = Int.negSucc (2 ^ n * m + (2 ^ n - 1)) := by
      rw [Int.shiftLeft_eq, Int.negSucc_eq, Int.negSucc_eq]
      push_cast [Nat.one_le_two_pow]
      ring
    rw [hshift]
    change (!(2 ^ n * m + (2 ^ n - 1)).testBit i) = (decide (n ≤ i) && !m.testBit (i - n))
    rw [Nat.testBit_two_pow_mul_add _ (by omega)]
    by_cases hi : i < n
    · simp [hi, Nat.testBit_two_pow_sub_one]
    · simp [hi, Nat.le_of_not_lt hi]

theorem testBit_emod_two_pow (x : Int) (w i : Nat) :
    (x % 2 ^ w).testBit i = (decide (i < w) && x.testBit i) := by
  have hpow : (2 : Int) ^ w = ((2 ^ w : Nat) : Int) := by push_cast; rfl
  rw [hpow]
  cases x with
  | ofNat m => exact Nat.testBit_mod_two_pow m w i
  | negSucc m =>
    have hlt : m % 2 ^ w < 2 ^ w := Nat.mod_lt _ (Nat.two_pow_pos w)
    have hmod : Int.negSucc m % ((2 ^ w : Nat) : Int) = ((2 ^ w - (m % 2 ^ w + 1) : Nat) : Int) :=
      Int.subNatNat_of_le hlt
    rw [hmod]
    change (2 ^ w - (m % 2 ^ w + 1)).testBit i = (decide (i < w) && !m.testBit i)
    rw [Nat.testBit_two_pow_sub_succ hlt, Nat.testBit_mod_two_pow]
    by_cases hi : i < w <;> simp [hi]

def mask (w : Nat) : Int := (1 : Int) <<< w - 1

theorem testBit_mask (w i : Nat) : (mask w).testBit i = decide (i < w) := by
  have hmask : mask w = ((2 ^ w - 1 : Nat) : Int) := by
    rw [mask, Int.shiftLeft_eq, one_mul]
    push_cast [Nat.one_le_two_pow]
    rfl
  rw [hmask]
  exact Nat.testBit_two_pow_sub_one w i

/-- Two integers with the same bits are equal: one of each sign differ in all high bits. -/
theorem eq_of_testBit_eq {a b : Int} (h : ∀ i, a.testBit i = b.testBit i) : a = b := by
  have hsign : ∀ m n : Nat, ∃ i, m.testBit i ≠ !n.testBit i := by
    intro m n
    refine ⟨max m n, ?_⟩
    rw [Nat.testBit_lt_two_pow ((Nat.le_max_left m n).trans_lt Nat.lt_two_pow_self),
      Nat.testBit_lt_two_pow ((Nat.le_max_right m n).trans_lt Nat.lt_two_pow_self)]
    decide
  cases a with
  | ofNat m =>
    cases b with
    | ofNat n => exact congrArg Int.ofNat (Nat.eq_of_testBit_eq h)
    | negSucc n =>
      obtain ⟨i, hi⟩ := hsign m n
      exact absurd (h i) hi
  | negSucc m =>
    cases b with
    | ofNat n =>
      obtain ⟨i, hi⟩ := hsign n m
      exact absurd (h i).symm hi
    | negSucc n =>
      refine congrArg Int.negSucc (Nat.eq_of_testBit_eq fun i => ?_)
      exact Bool.not_inj (h i)

theorem nonneg_of_testBit {a b : Int} {n : Nat} (hb : 0 ≤ b)
    (h : ∀ i, n ≤ i → a.testBit i = b.testBit i) : 0 ≤ a := by
  cases a with
  | ofNat m => exact Int.natCast_nonneg m
  | negSucc m =>
    obtain ⟨k, rfl⟩ := Int.eq_ofNat_of_zero_le hb
    have hhigh := h (max n (max m k)) (Nat.le_max_left _ _)
    change (!m.testBit (max n (max m k))) = k.testBit (max n (max m k)) at hhigh
    rw [Nat.testBit_lt_two_pow (lt_of_le_of_lt (by omega) Nat.lt_two_pow_self),
      Nat.testBit_lt_two_pow (lt_of_le_of_lt (by omega) Nat.lt_two_pow_self)] at hhigh
    contradiction

/-! ### Slices -/

/-- The `w` bits from bit `lsb` on. -/
def slice (v : Int) (lsb w : Nat) : Int := Int.land (v >>> lsb) (mask w)

/-- `v` with the `w` bits from bit `lsb` on taken from `x`. -/
def splice (v : Int) (lsb w : Nat) (x : Int) : Int :=
  Int.lor (Int.land v (Int.lnot (mask w <<< lsb))) (Int.land x (mask w) <<< lsb)

/-- No bit is in both stretches. -/
def Apart (lsb w lsb' w' : Nat) : Prop := lsb + w ≤ lsb' ∨ lsb' + w' ≤ lsb

section Slices

variable (v x : Int) (lsb w : Nat)

theorem testBit_slice (i : Nat) :
    (slice v lsb w).testBit i = (decide (i < w) && v.testBit (lsb + i)) := by
  rw [slice, Int.testBit_land, testBit_shiftRight, testBit_mask, Bool.and_comm]

theorem testBit_splice (i : Nat) :
    (splice v lsb w x).testBit i =
      if lsb ≤ i ∧ i < lsb + w then x.testBit (i - lsb) else v.testBit i := by
  rw [splice, Int.testBit_lor, Int.testBit_land, Int.testBit_lnot, testBit_shiftLeft,
    testBit_shiftLeft, testBit_mask, Int.testBit_land, testBit_mask]
  by_cases hlo : lsb ≤ i
  · by_cases hhi : i < lsb + w
    · simp [hlo, hhi, show i - lsb < w by omega]
    · simp [hlo, hhi, show ¬ i - lsb < w by omega]
  · simp [hlo]

theorem slice_splice : slice (splice v lsb w x) lsb w = x % 2 ^ w := by
  apply eq_of_testBit_eq
  intro i
  rw [testBit_slice, testBit_splice, testBit_emod_two_pow, Nat.add_sub_cancel_left]
  by_cases hi : i < w
  · simp [hi]
  · simp [hi]

theorem splice_slice : splice v lsb w (slice v lsb w) = v := by
  apply eq_of_testBit_eq
  intro i
  rw [testBit_splice, testBit_slice]
  split
  · rename_i hin
    rw [Nat.add_sub_cancel' hin.1, decide_eq_true (show i - lsb < w by omega), Bool.true_and]
  · rfl

theorem splice_nonneg {v : Int} (hv : 0 ≤ v) : 0 ≤ splice v lsb w x :=
  nonneg_of_testBit (n := lsb + w) hv fun i hi => by
    rw [testBit_splice, if_neg (by omega)]

variable {lsb w} {lsb' w' : Nat}

theorem slice_splice_of_apart (h : Apart lsb w lsb' w') :
    slice (splice v lsb w x) lsb' w' = slice v lsb' w' := by
  unfold Apart at h
  apply eq_of_testBit_eq
  intro i
  rw [testBit_slice, testBit_slice, testBit_splice]
  by_cases hi : i < w'
  · rw [if_neg (by omega)]
  · rw [decide_eq_false hi, Bool.false_and, Bool.false_and]

theorem splice_comm (h : Apart lsb w lsb' w') (x' : Int) :
    splice (splice v lsb w x) lsb' w' x' = splice (splice v lsb' w' x') lsb w x := by
  unfold Apart at h
  apply eq_of_testBit_eq
  intro i
  rw [testBit_splice, testBit_splice, testBit_splice, testBit_splice]
  by_cases hin : lsb ≤ i ∧ i < lsb + w
  · rw [if_pos hin, if_pos hin, if_neg (by omega)]
  · rw [if_neg hin, if_neg hin]

end Slices

end MiniHaywire.IntBits

import Mathlib.Data.Nat.Digits.Lemmas
import Mathlib.Tactic

/-!
# Numerals

The digits of a natural number in a base, most significant first and without a
leading zero; zero itself is a single digit.  A numeral determines its number.  Two
numerals written one behind the other are a numeral again, unless the first one is
that of zero, and from such a pair the two numbers cannot be told in general
(`append_eq_append_iff`).
-/

namespace MiniHaywire.Numeral

def numeral (b n : Nat) : List Nat := if n = 0 then [0] else (Nat.digits b n).reverse

variable {b : Nat}

theorem numeral_zero (b : Nat) : numeral b 0 = [0] := rfl

theorem numeral_of_ne_zero {n : Nat} (h : n ≠ 0) : numeral b n = (Nat.digits b n).reverse :=
  if_neg h

theorem numeral_of_lt {n : Nat} (h : n < b) : numeral b n = [n] := by
  by_cases hn : n = 0
  · rw [hn, numeral_zero]
  · rw [numeral_of_ne_zero hn, Nat.digits_of_lt b n hn h, List.reverse_singleton]

theorem numeral_of_ge (hb : 1 < b) {n : Nat} (h : b ≤ n) :
    numeral b n = numeral b (n / b) ++ [n % b] := by
  have hdiv : n / b ≠ 0 := Nat.ne_of_gt (Nat.div_pos h (by omega))
  rw [numeral_of_ne_zero (by omega), numeral_of_ne_zero hdiv, Nat.digits_def' hb (by omega),
    List.reverse_cons]

theorem numeral_lt (hb : 1 < b) {n d : Nat} (hd : d ∈ numeral b n) : d < b := by
  by_cases hn : n = 0
  · simp [hn, numeral_zero] at hd
    omega
  · rw [numeral_of_ne_zero hn, List.mem_reverse] at hd
    exact Nat.digits_lt_base hb hd

theorem numeral_ne_nil (b n : Nat) : numeral b n ≠ [] := by
  by_cases hn : n = 0
  · simp [hn, numeral_zero]
  · simpa [numeral_of_ne_zero hn] using Nat.digits_ne_nil_iff_ne_zero.mpr hn

theorem ofDigits_numeral (b n : Nat) : Nat.ofDigits b (numeral b n).reverse = n := by
  by_cases hn : n = 0
  · simp [hn, numeral_zero]
  · rw [numeral_of_ne_zero hn, List.reverse_reverse, Nat.ofDigits_digits]

theorem numeral_injective (b : Nat) : Function.Injective (numeral b) := by
  intro m n h
  rw [← ofDigits_numeral b m, h, ofDigits_numeral]

theorem length_numeral_le (hb : 1 < b) {n k : Nat} (hk : 0 < k) (h : n < b ^ k) :
    (numeral b n).length ≤ k := by
  by_cases hn : n = 0
  · rw [hn, numeral_zero]
    exact hk
  · simpa [numeral_of_ne_zero hn] using (Nat.digits_length_le_iff hb n).mpr h

theorem eq_zero_of_head {n : Nat} {ds : List Nat} (h : numeral b n = 0 :: ds) : n = 0 := by
  by_contra hn
  have hlast := Nat.getLast_digit_ne_zero b hn
  rw [numeral_of_ne_zero hn] at h
  have hdigits : Nat.digits b n = ds.reverse ++ [0] := by
    rw [← List.reverse_reverse (Nat.digits b n), h, List.reverse_cons]
  exact hlast (by simp [hdigits])

theorem numeral_append (hb : 1 < b) {h : Nat} (hh : h ≠ 0) (l : Nat) :
    numeral b h ++ numeral b l = numeral b (h * b ^ (numeral b l).length + l) := by
  have hpow : 0 < b ^ (numeral b l).length := Nat.pow_pos (by omega)
  have hn : h * b ^ (numeral b l).length + l ≠ 0 := by
    have := Nat.mul_pos (Nat.pos_of_ne_zero hh) hpow
    omega
  have hvalue : Nat.ofDigits b (numeral b h ++ numeral b l).reverse =
      h * b ^ (numeral b l).length + l := by
    rw [List.reverse_append, Nat.ofDigits_append, ofDigits_numeral, ofDigits_numeral,
      List.length_reverse]
    ring
  -- the digits are the right ones: they are below the base, and the first is not zero
  have hdigits := Nat.digits_ofDigits b hb (numeral b h ++ numeral b l).reverse
    (by
      intro d hd
      rcases List.mem_append.mp (List.mem_reverse.mp hd) with hd | hd
      · exact numeral_lt hb hd
      · exact numeral_lt hb hd)
    (by
      intro hne
      rw [List.getLast_reverse, List.head_append_left (numeral_ne_nil b h)]
      obtain ⟨d, ds, hcons⟩ := List.exists_cons_of_ne_nil (numeral_ne_nil b h)
      simp only [hcons, List.head_cons]
      rintro rfl
      exact hh (eq_zero_of_head hcons))
  rw [numeral_of_ne_zero hn, ← hvalue, hdigits, List.reverse_reverse]

theorem eq_zero_of_append {h l h' l' : Nat}
    (heq : numeral b h ++ numeral b l = numeral b h' ++ numeral b l') (hh : h = 0) : h' = 0 := by
  obtain ⟨d, ds, hcons⟩ := List.exists_cons_of_ne_nil (numeral_ne_nil b h')
  rw [hh, numeral_zero, hcons, List.cons_append, List.cons_append] at heq
  obtain ⟨rfl, -⟩ := List.cons.inj heq
  exact eq_zero_of_head hcons

theorem append_eq_append_iff (hb : 1 < b) {h l h' l' : Nat} :
    numeral b h ++ numeral b l = numeral b h' ++ numeral b l' ↔
      (h = h' ∧ l = l') ∨ (h ≠ 0 ∧ h' ≠ 0 ∧
        h * b ^ (numeral b l).length + l = h' * b ^ (numeral b l').length + l') := by
  constructor
  · intro heq
    by_cases hh : h = 0
    · -- one text starts with a zero, and so does the other
      have hh' := eq_zero_of_append heq hh
      rw [hh, hh'] at heq
      exact .inl ⟨hh.trans hh'.symm, numeral_injective b (List.append_cancel_left heq)⟩
    · have hh' : h' ≠ 0 := mt (eq_zero_of_append heq.symm) hh
      rw [numeral_append hb hh, numeral_append hb hh'] at heq
      exact .inr ⟨hh, hh', numeral_injective b heq⟩
  · rintro (⟨rfl, rfl⟩ | ⟨hh, hh', heq⟩)
    · rfl
    · rw [numeral_append hb hh, numeral_append hb hh', heq]

end MiniHaywire.Numeral

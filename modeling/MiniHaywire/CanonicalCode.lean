import Mathlib.Data.Nat.Nth
import Mathlib.Tactic.Ring

/-!
# Canonical prefix codes

A canonical code is given by the lengths of its words alone.  Words of one length are
consecutive numbers in the order of their symbols, and the first word of a length
follows the last one of the length below it.

The words are looked for in an endless string of bits, given as a function of the
position, bit by bit: as long as the bits read are above all words of their length, one
bit more completes a word or leaves them above.
-/

namespace MiniHaywire.CanonicalCode

/-- The number that the `n` bits from `p` on are, the highest one first. -/
def word (bit : Nat → Bool) (p : Nat) : Nat → Nat
  | 0 => 0
  | n + 1 => 2 * word bit p n + (bit (p + n)).toNat

/-- The lengths of the words of `num` symbols, zero for a symbol without one. -/
structure Code where
  len : Nat → Nat
  num : Nat

namespace Code

variable (c : Code)

def Coded (s : Nat) : Prop := s < c.num ∧ c.len s ≠ 0

def words : Nat := Nat.count (c.len · ≠ 0) c.num

def used (n : Nat) : Nat := if n = 0 then 0 else Nat.count (c.len · = n) c.num

def first : Nat → Nat
  | 0 => 0
  | n + 1 => 2 * (first n + c.used n)

def offset : Nat → Nat
  | 0 => 0
  | n + 1 => offset n + c.used n

/-- The place of a symbol among those whose words are as long. -/
def rank (s : Nat) : Nat := Nat.count (c.len · = c.len s) s

def index (s : Nat) : Nat := c.offset (c.len s) + c.rank s

def WordAt (bit : Nat → Bool) (p s : Nat) : Prop :=
  c.Coded s ∧ word bit p (c.len s) = c.first (c.len s) + c.rank s

/-- The words fill the code up, and none has more than `n` bits. -/
def Complete (n : Nat) : Prop := c.first n + c.used n = 2 ^ n ∧ ∀ s < c.num, c.len s ≤ n

def Single : Prop := c.words = 1 ∧ c.used 1 = 1

def Unused : Prop := ∀ s, ¬ c.Coded s

/-- The words below `n` bits are not more than there is room for. -/
def Fits (n : Nat) : Prop := ∀ k < n, c.first k + c.used k ≤ 2 ^ k

/-- The `n` bits at `p` are above all words of their length. -/
def Above (bit : Nat → Bool) (p n : Nat) : Prop := c.first n + c.used n ≤ word bit p n

end Code

open Code

variable {bit : Nat → Bool} {c : Code} {p n k s s' : Nat}

theorem word_lt (bit : Nat → Bool) (p n : Nat) : word bit p n < 2 ^ n := by
  induction n with
  | zero => exact Nat.one_pos
  | succ n ih =>
    have hbit := Bool.toNat_lt (bit (p + n))
    rw [word, pow_succ]
    omega

theorem word_add (bit : Nat → Bool) (p n k : Nat) :
    word bit p (n + k) = 2 ^ k * word bit p n + word bit (p + n) k := by
  induction k with
  | zero => rw [Nat.add_zero, pow_zero, Nat.one_mul, word, Nat.add_zero]
  | succ k ih =>
    rw [← Nat.add_assoc, word, ih, word, Nat.add_assoc]
    ring

/-! ### Symbols of one length -/

theorem Code.Coded.rank_lt (hs : c.Coded s) : c.rank s < c.used (c.len s) := by
  rw [used, if_neg hs.2]
  exact Nat.count_strict_mono rfl hs.1

theorem exists_rank {r : Nat} (hr : r < c.used n) :
    ∃ s, c.Coded s ∧ c.len s = n ∧ c.rank s = r := by
  by_cases hn : n = 0
  · rw [used, if_pos hn] at hr
    omega
  · rw [used, if_neg hn] at hr
    have hcard := fun hf => hr.trans_le (Nat.count_le_card hf c.num)
    have hlen : c.len (Nat.nth (c.len · = n) r) = n := Nat.nth_mem _ hcard
    refine ⟨_, ⟨Nat.nth_lt_of_lt_count hr, by rwa [hlen]⟩, hlen, ?_⟩
    rw [rank, hlen]
    exact Nat.count_nth hcard

/-! ### Words of different lengths -/

theorem le_first (h : k < n) : 2 ^ (n - k) * (c.first k + c.used k) ≤ c.first n := by
  induction n with
  | zero => exact absurd h (Nat.not_lt_zero k)
  | succ n ih =>
    rcases Nat.lt_or_eq_of_le (Nat.le_of_lt_succ h) with hlt | rfl
    · have hstep := ih hlt
      rw [Nat.succ_sub hlt.le, pow_succ', mul_assoc, first]
      omega
    · rw [Nat.add_sub_cancel_left, pow_one, first]

theorem Code.WordAt.len_le (h : c.WordAt bit p s) (h' : c.WordAt bit p s') :
    c.len s' ≤ c.len s := by
  by_contra hlt
  obtain ⟨k, hk⟩ := Nat.exists_eq_add_of_lt (Nat.lt_of_not_le hlt)
  have hle : 2 ^ (c.len s' - c.len s) * (c.first (c.len s) + c.used (c.len s)) ≤
      c.first (c.len s') :=
    le_first (Nat.lt_of_not_le hlt)
  have hword := h'.2
  rw [show c.len s' = c.len s + (k + 1) by omega, Nat.add_sub_cancel_left] at hle
  rw [show c.len s' = c.len s + (k + 1) by omega, word_add, h.2] at hword
  have hscaled : 2 ^ (k + 1) * (c.first (c.len s) + c.used (c.len s)) <
      2 ^ (k + 1) * (c.first (c.len s) + c.rank s + 1) := by
    have hrest := word_lt bit (p + c.len s) (k + 1)
    rw [Nat.mul_succ]
    omega
  have hrank := h.1.rank_lt
  have := Nat.lt_of_mul_lt_mul_left hscaled
  omega

/-- At most one word stands at a position. -/
theorem Code.WordAt.unique (h : c.WordAt bit p s) (h' : c.WordAt bit p s') : s = s' := by
  have hlen : c.len s = c.len s' := Nat.le_antisymm (h'.len_le h) (h.len_le h')
  have hrank : c.rank s = c.rank s' := by
    have hword := h.2
    rw [hlen, h'.2] at hword
    omega
  rw [rank, rank, ← hlen] at hrank
  exact Nat.count_injective (p := (c.len · = c.len s)) rfl hlen.symm hrank

/-! ### Looking for a word -/

theorem above_zero : c.Above bit p 0 := Nat.le_refl 0

theorem Code.Above.sub_first (h : c.Above bit p n) :
    2 * (word bit p n - (c.first n + c.used n)) + (bit (p + n)).toNat =
      word bit p (n + 1) - c.first (n + 1) := by
  unfold Above at h
  rw [word, first]
  omega

theorem Code.Above.wordAt (h : c.Above bit p n)
    (hlt : word bit p (n + 1) - c.first (n + 1) < c.used (n + 1)) :
    ∃ s, c.WordAt bit p s ∧ c.len s = n + 1 ∧
      c.index s = c.offset (n + 1) + (word bit p (n + 1) - c.first (n + 1)) := by
  obtain ⟨s, hs, hlen, hrank⟩ := exists_rank hlt
  refine ⟨s, ⟨hs, ?_⟩, hlen, by rw [index, hlen, hrank]⟩
  unfold Above at h
  rw [hlen, hrank, word, first]
  omega

theorem Code.Above.succ (h : c.Above bit p n)
    (hge : ¬ word bit p (n + 1) - c.first (n + 1) < c.used (n + 1)) : c.Above bit p (n + 1) := by
  unfold Above at *
  rw [word, first] at *
  omega

theorem Code.Complete.not_above (h : c.Complete n) : ¬ c.Above bit p n :=
  fun habove => Nat.not_lt_of_le (h.1 ▸ habove) (word_lt bit p n)

/-! ### The order of the words -/

theorem offset_mono (h : n ≤ k) : c.offset n ≤ c.offset k := by
  induction h with
  | refl => exact le_rfl
  | step _ ih => exact ih.trans (Nat.le_add_right _ _)

theorem count_lt_succ (len : Nat → Nat) (n num : Nat) :
    Nat.count (fun s => len s ≠ 0 ∧ len s < n + 1) num =
      Nat.count (fun s => len s ≠ 0 ∧ len s < n) num +
        if n = 0 then 0 else Nat.count (len · = n) num := by
  induction num with
  | zero => simp
  | succ num ih =>
    simp only [Nat.count_succ, ih]
    split_ifs <;> omega

theorem offset_eq_count (n : Nat) :
    c.offset n = Nat.count (fun s => c.len s ≠ 0 ∧ c.len s < n) c.num := by
  induction n with
  | zero => simp [offset]
  | succ n ih => rw [offset, ih, used, count_lt_succ]

theorem Code.Coded.index_lt (hs : c.Coded s) : c.index s < c.offset (c.len s + 1) :=
  Nat.add_lt_add_left hs.rank_lt _

theorem Code.Coded.index_lt_num (hs : c.Coded s) : c.index s < c.num := by
  have hle : c.offset (c.len s + 1) ≤ c.num := offset_eq_count (c := c) _ ▸ Nat.count_le _
  exact hs.index_lt.trans_le hle

theorem Code.Coded.len_le_of_index (hs : c.Coded s) (h : c.index s' ≤ c.index s) :
    c.len s' ≤ c.len s := by
  by_contra hlt
  have hmono : c.offset (c.len s + 1) ≤ c.offset (c.len s') := offset_mono (Nat.lt_of_not_le hlt)
  have hlt := hs.index_lt
  unfold index at *
  omega

theorem Code.Coded.index_inj (hs : c.Coded s) (hs' : c.Coded s') (h : c.index s = c.index s') :
    s = s' := by
  have hlen : c.len s = c.len s' :=
    Nat.le_antisymm (hs'.len_le_of_index h.le) (hs.len_le_of_index h.ge)
  rw [index, index, rank, rank, ← hlen] at h
  exact Nat.count_injective (p := (c.len · = c.len s)) rfl hlen.symm (Nat.add_left_cancel h)

/-! ### Few words -/

theorem first_add_used_le_mul (c : Code) (n : Nat) :
    c.first (n + 1) + c.used (n + 1) ≤ 2 ^ n * c.offset (n + 1 + 1) := by
  induction n with
  | zero => simp [first, offset, used]
  | succ n ih =>
    have hused : c.used (n + 1 + 1) ≤ 2 ^ (n + 1) * c.used (n + 1 + 1) :=
      Nat.le_mul_of_pos_left _ (Nat.two_pow_pos _)
    rw [pow_succ', mul_assoc] at hused
    have hoffset : c.offset (n + 1 + 1 + 1) = c.offset (n + 1 + 1) + c.used (n + 1 + 1) := rfl
    rw [first, hoffset, pow_succ', mul_assoc, Nat.mul_add (2 ^ n)]
    omega

theorem fits_of_offset_le_one (h : c.offset n ≤ 1) : c.Fits n := by
  intro k hk
  cases k with
  | zero => exact Nat.zero_le _
  | succ k =>
    have hmul : 2 ^ k * c.offset (k + 1 + 1) ≤ 2 ^ k * 1 :=
      Nat.mul_le_mul_left _ ((offset_mono hk).trans h)
    have hle := first_add_used_le_mul c k
    rw [pow_succ]
    omega

theorem Code.Complete.one_lt_offset (h : c.Complete (n + 1)) : 1 < c.offset (n + 1 + 1) := by
  have hle := first_add_used_le_mul c n
  rw [h.1, pow_succ] at hle
  exact Nat.le_of_mul_le_mul_left hle (Nat.two_pow_pos n)

theorem Code.Complete.fits (h : c.Complete n) : c.Fits (n + 1) := by
  intro k hk
  rcases Nat.lt_or_eq_of_le (Nat.le_of_lt_succ hk) with hlt | rfl
  · have hle : 2 ^ (n - k) * (c.first k + c.used k) ≤ c.first n := le_first hlt
    have hpow : 2 ^ n = 2 ^ (n - k) * 2 ^ k := by rw [← pow_add, Nat.sub_add_cancel hlt.le]
    have hfull := h.1
    have hscaled : 2 ^ (n - k) * (c.first k + c.used k) ≤ 2 ^ (n - k) * 2 ^ k := by omega
    exact Nat.le_of_mul_le_mul_left hscaled (Nat.two_pow_pos _)
  · exact h.1.le

theorem unused_iff : c.Unused ↔ c.words = 0 := by
  simp [words, Nat.count_iff_forall_not, Unused, Coded]

section Bounded

variable (hle : ∀ s < c.num, c.len s ≤ n)
include hle

theorem offset_eq_words : c.offset (n + 1) = c.words := by
  rw [offset_eq_count, words, Nat.count_eq_card_filter_range, Nat.count_eq_card_filter_range]
  refine congrArg _ (Finset.filter_congr fun s hs => ?_)
  have := hle s (Finset.mem_range.mp hs)
  omega

theorem index_lt_words (hs : c.Coded s) : c.index s < c.words :=
  offset_eq_words hle ▸ hs.index_lt.trans_le (offset_mono (Nat.succ_le_succ (hle s hs.1)))

theorem Code.Single.exists (h : c.Single) :
    ∃ s, c.Coded s ∧ c.len s = 1 ∧ c.index s = 0 ∧ ∀ s', c.Coded s' → s' = s := by
  obtain ⟨s, hs, hlen, -⟩ : ∃ s, c.Coded s ∧ c.len s = 1 ∧ c.rank s = 0 :=
    exists_rank (by rw [h.2]; exact Nat.one_pos)
  have hindex : ∀ s, c.Coded s → c.index s = 0 := fun s hs =>
    Nat.lt_one_iff.mp (h.1 ▸ index_lt_words hle hs)
  exact ⟨s, hs, hlen, hindex s hs, fun s' hs' => hs'.index_inj hs
    ((hindex s' hs').trans (hindex s hs).symm)⟩

end Bounded

end MiniHaywire.CanonicalCode

import MiniHaywire.Deflate
import MiniHaywire.Tinf

/-!
# The bits that the decoder reads

Behind the end of the source `tinf_refill` goes on with zeros, and only notes that it
did.  So the decoder reads an endless string of bits, and how many of them it has used
up determines the rest of its reading state (`Data.read`).
-/

namespace MiniHaywire.Tinf

open CanonicalCode Deflate

variable {bit : Nat → Bool} {p n k v num : Nat}

/-! ### Numbers in the bits -/

theorem value_eq_mod (h : ∀ i < n, bit (p + i) = v.testBit i) : value bit p n = v % 2 ^ n := by
  induction n with
  | zero => rw [value, pow_zero, Nat.mod_one]
  | succ n ih =>
    rw [value, ih fun i hi => h i (Nat.lt_succ_of_lt hi), h n (Nat.lt_succ_self n),
      Nat.toNat_testBit, Nat.mod_pow_succ]

theorem value_lt (bit : Nat → Bool) (p n : Nat) : value bit p n < 2 ^ n := by
  induction n with
  | zero => exact Nat.one_pos
  | succ n ih =>
    have hbit := Nat.mul_le_mul_left (2 ^ n) (Nat.le_of_lt_succ (Bool.toNat_lt (bit (p + n))))
    rw [value, pow_succ]
    omega

theorem value_add (bit : Nat → Bool) (p n k : Nat) :
    value bit p (n + k) = value bit p n + 2 ^ n * value bit (p + n) k := by
  induction k with
  | zero => rw [value, Nat.add_zero, Nat.mul_zero, Nat.add_zero]
  | succ k ih =>
    rw [← Nat.add_assoc, value, ih, value, Nat.add_assoc p]
    ring

theorem value_split {n num : Nat} (h : num ≤ n) : value bit p n % 2 ^ num = value bit p num ∧
    value bit p n / 2 ^ num = value bit (p + num) (n - num) := by
  have hlt := value_lt bit p num
  rw [← Nat.add_sub_cancel' h, value_add, Nat.add_mul_mod_self_left, Nat.mod_eq_of_lt hlt,
    Nat.add_mul_div_left _ _ (Nat.two_pow_pos num), Nat.div_eq_of_lt hlt, Nat.zero_add,
    Nat.add_sub_cancel_left]
  exact ⟨rfl, rfl⟩

theorem value_one (bit : Nat → Bool) (p : Nat) : value bit p 1 = (bit p).toNat := by
  simp [value]

theorem value_byte (byte : Nat → Byte) (k : Nat) :
    value (bitOf byte) (8 * k) 8 = (byte k).toNat := by
  rw [value_eq_mod (v := (byte k).toNat), Nat.mod_eq_of_lt (BitVec.isLt _)]
  intro i hi
  rw [bitOf, show (8 * k + i) / 8 = k by omega, show (8 * k + i) % 8 = i by omega, BitVec.getLsbD]

theorem ofNat_or_byte (hv : v < 2 ^ n) (hn : n ≤ 24) {w : Nat} (hw : w < 2 ^ 8) :
    BitVec.ofNat 32 v ||| (BitVec.ofNat 8 w).setWidth 32 <<< n = .ofNat 32 (v + 2 ^ n * w) := by
  have hpow : 2 ^ n ≤ 2 ^ 24 := Nat.pow_le_pow_right (by omega) hn
  have hlt : 2 ^ n * w ≤ 2 ^ 24 * 255 := Nat.mul_le_mul hpow (by omega)
  apply BitVec.eq_of_toNat_eq
  rw [BitVec.toNat_or, BitVec.toNat_shiftLeft, BitVec.toNat_setWidth, BitVec.toNat_ofNat,
    BitVec.toNat_ofNat, BitVec.toNat_ofNat, Nat.mod_eq_of_lt (show v < 2 ^ 32 by omega),
    Nat.mod_eq_of_lt hw, Nat.mod_eq_of_lt (show w < 2 ^ 32 by omega), Nat.shiftLeft_eq,
    Nat.mul_comm, Nat.mod_eq_of_lt (show 2 ^ n * w < 2 ^ 32 by omega),
    Nat.mod_eq_of_lt (show v + 2 ^ n * w < 2 ^ 32 by omega), Nat.or_comm, Nat.add_comm v,
    Nat.two_pow_add_eq_or_of_lt hv]

theorem toNat_mask (h : num < 32) (tag : U32) :
    (tag &&& ((1 : U32) <<< num - 1)).toNat = tag.toNat % 2 ^ num := by
  have hshift : ((1 : U32) <<< num).toNat = 2 ^ num := BitVec.toNat_twoPow_of_lt h
  have hsub : ((1 : U32) <<< num - 1).toNat = 2 ^ num - 1 := by
    rw [BitVec.toNat_sub_of_le, hshift]
    · rfl
    · rw [BitVec.le_def, hshift]
      exact Nat.two_pow_pos num
  rw [BitVec.toNat_and, hsub, Nat.and_two_pow_sub_one_eq_mod]

theorem assert_pos {p : Prop} [Decidable p] (h : p) : assert p = .ok () := if_pos h

/-! ### The reading state -/

/-- No bit in front of `p` is behind the end of the source. -/
def Env.Inside (e : Env) (p : Nat) : Prop := ∀ last, e.sourceEnd = some last → p ≤ 8 * last

/-- The source has the bits `bit`, which are zeros behind its end. -/
structure Env.Has (e : Env) (bit : Nat → Bool) : Prop where
  src : ∀ k, e.Inside (8 * k + 8) → e.src k = some (.ofNat 8 (value bit (8 * k) 8))
  behind : ∀ k, ¬ e.Inside (8 * k + 8) → value bit (8 * k) 8 = 0

/-- `p` bits are used up, of `k` bytes. -/
def Data.holding (d : Data) (e : Env) (bit : Nat → Bool) (p k : Nat) : Data :=
  { d with
    source := e.sourceEnd.elim k (min k)
    tag := .ofNat 32 (value bit p (8 * k - p))
    bitcount := 8 * k - p
    overflow := e.sourceEnd.any (· < k) }

/-- `p` bits are used up, and no byte is held that is not needed. -/
def Data.read (d : Data) (e : Env) (bit : Nat → Bool) (p : Nat) : Data :=
  d.holding e bit p ((p + 7) / 8)

variable {e : Env} (he : e.Has bit) (d : Data)

@[simp] theorem read_dest : (d.read e bit p).dest = d.dest := rfl

@[simp] theorem read_ltree : (d.read e bit p).ltree = d.ltree := rfl

@[simp] theorem read_dtree : (d.read e bit p).dtree = d.dtree := rfl

theorem read_overflow : (d.read e bit p).overflow = true ↔ ¬ e.Inside p := by
  unfold Env.Inside Data.read Data.holding
  cases e.sourceEnd with
  | none => simp
  | some last =>
    simp only [Option.any_some, decide_eq_true_eq, Option.some.injEq, forall_eq']
    omega

theorem Env.Inside.mono {q : Nat} (h : e.Inside q) (hle : p ≤ q) : e.Inside p :=
  fun last hlast => hle.trans (h last hlast)

theorem Env.Inside.source {q : Nat} (h : e.Inside q) (hle : 8 * k ≤ q) :
    e.sourceEnd.elim k (min k) = k ∧ e.sourceEnd.any (· < k) = false := by
  cases hend : e.sourceEnd with
  | none => exact ⟨rfl, rfl⟩
  | some last =>
    have hlast := h last hend
    exact ⟨Nat.min_eq_left (by omega), decide_eq_false (by omega)⟩

include he

theorem readByte_eq (h : e.Inside (8 * k + 8)) :
    readByte e.src k = .ok (.ofNat 8 (value bit (8 * k) 8)) := by
  rw [readByte, he.src k h]

theorem nextByte_holding (hp : p ≤ 8 * k) (hk : 8 * k - p ≤ 24) :
    nextByte e (d.holding e bit p k) = .ok (d.holding e bit p (k + 1)) := by
  have hvalue : value bit p (8 * k - p + 8) =
      value bit p (8 * k - p) + 2 ^ (8 * k - p) * value bit (8 * k) 8 := by
    rw [value_add, Nat.add_sub_cancel' hp]
  by_cases hend : e.Inside (8 * k + 8)
  · have hmore : some k ≠ e.sourceEnd := fun h => absurd (hend k h.symm) (by omega)
    simp only [nextByte, Data.holding, show 8 * (k + 1) - p = 8 * k - p + 8 by omega, hvalue,
      hend.source (show 8 * k ≤ _ by omega), hend.source (Nat.le_refl (8 * (k + 1))), if_pos hmore,
      readByte_eq he hend, except_ok_bind, ofNat_or_byte (value_lt _ _ _) hk (value_lt _ _ _)]
  · have hzero := he.behind k hend
    simp only [Env.Inside, not_forall, Nat.not_le] at hend
    obtain ⟨last, hlast, hlt⟩ := hend
    simp only [nextByte, Data.holding, show 8 * (k + 1) - p = 8 * k - p + 8 by omega, hvalue, hzero,
      hlast, Option.elim_some, Nat.min_eq_right (show last ≤ k by omega), ne_eq, not_true_eq_false,
      if_false, Nat.min_eq_right (show last ≤ k + 1 by omega), Option.any_some,
      decide_eq_true (show last < k + 1 by omega), Nat.mul_zero, Nat.add_zero]

theorem refillLoop_holding (hnum : num ≤ 24) : ∀ (n k : Nat), p ≤ 8 * k → num ≤ 8 * k - p + 8 * n →
    refillLoop e num n (d.holding e bit p k) =
      .ok (d.holding e bit p (max k ((p + num + 7) / 8))) := by
  intro n
  induction n with
  | zero =>
    intro k hp hbits
    rw [refillLoop, Nat.max_eq_left (by omega)]
  | succ n ih =>
    intro k hp hbits
    rw [refillLoop]
    split
    case isTrue hmore =>
      change 8 * k - p < num at hmore
      rw [nextByte_holding he d hp (by omega), except_ok_bind, ih (k + 1) (by omega) (by omega),
        Nat.max_eq_right (by omega), Nat.max_eq_right (by omega)]
    case isFalse hdone =>
      change ¬ 8 * k - p < num at hdone
      rw [Nat.max_eq_left (by omega)]

omit he in
theorem tinfGetbitsNoRefill_holding (hnum : num ≤ 8 * k - p) (hk : 8 * k - p < 32) :
    tinfGetbitsNoRefill num (d.holding e bit p k) =
      .ok (value bit p num, d.holding e bit (p + num) k) := by
  have hlt : ∀ q n, n < 32 → value bit q n < 2 ^ 32 := fun q n hn =>
    (value_lt _ _ _).trans (Nat.pow_lt_pow_right (by omega) hn)
  have hbits : (BitVec.ofNat 32 (value bit p (8 * k - p)) &&& ((1 : U32) <<< num - 1)).toNat =
      value bit p num := by
    rw [toNat_mask (by omega), BitVec.toNat_ofNat, Nat.mod_eq_of_lt (hlt _ _ hk),
      (value_split hnum).1]
  have htag : BitVec.ofNat 32 (value bit p (8 * k - p)) >>> num =
      .ofNat 32 (value bit (p + num) (8 * k - p - num)) := by
    apply BitVec.eq_of_toNat_eq
    rw [BitVec.toNat_ushiftRight, BitVec.toNat_ofNat, BitVec.toNat_ofNat,
      Nat.mod_eq_of_lt (hlt _ _ hk),
      Nat.shiftRight_eq_div_pow, (value_split hnum).2, Nat.mod_eq_of_lt (hlt _ _ (by omega))]
  have hheld : num ≤ (d.holding e bit p k).bitcount := hnum
  rw [tinfGetbitsNoRefill, assert_pos hheld, except_ok_bind]
  simp only [Data.holding, hbits, htag, Nat.sub_sub]

/-- Bits are read, behind the end of the source as well. -/
theorem tinfGetbits_read (p : Nat) (hnum : num ≤ 24) :
    tinfGetbits e num (d.read e bit p) = .ok (value bit p num, d.read e bit (p + num)) := by
  have hcount : (d.holding e bit p ((p + num + 7) / 8)).bitcount ≤ 32 := by
    show 8 * ((p + num + 7) / 8) - p ≤ 32
    omega
  rw [tinfGetbits, tinfRefill, assert_pos (by omega), except_ok_bind, Data.read,
    refillLoop_holding he d hnum 4 _ (by omega) (by omega), except_ok_bind,
    Nat.max_eq_right (by omega), assert_pos hcount, except_ok_bind, except_ok_bind,
    tinfGetbitsNoRefill_holding d (by omega) (by omega)]
  rfl

theorem tinfGetbitsBase_read (p base : Nat) (hnum : num ≤ 24) :
    tinfGetbitsBase e num base (d.read e bit p) =
      .ok (base + value bit p num, d.read e bit (p + num)) := by
  rw [tinfGetbitsBase, tinfGetbits_read he d p hnum, except_ok_bind]
  split
  case isTrue => rfl
  case isFalse h =>
    rw [not_not.mp h]
    rfl

end MiniHaywire.Tinf

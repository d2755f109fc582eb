import MiniHaywire.Bytes

/-!
# The timer

`get_ticks` of `timer.c` and `udelay` of `utils.c`.  The counter has 64 bits and runs
on; `get_ticks` reads its high word and then its low word, and nothing latches the
low word in between.  If the low word rolls over between the two reads, the value
put together from them lies 2^32 below the counter: it is a snapshot exactly if both
reads see the same high word (`snapshot_iff`).
-/

namespace MiniHaywire.Timer

def TIMER_FREQ : U32 := 24000000

/-- The counter as the reads of its registers see it.  Every call of `get_ticks` makes two of
    them: read `2 * k` is the first one of call `k`. -/
structure Counter where
  value : Nat → Nat
  mono : Monotone value
  lt : ∀ n, value n < 2 ^ 64
  near : ∀ k, value (2 * k + 1) - value (2 * k) < 2 ^ 32

/-- `read32(timer_base + TIMER_64_HI)`, with the counter at `t`. -/
def readHi (t : Nat) : U32 := BitVec.ofNat 32 (t / 2 ^ 32)

def readLo (t : Nat) : U32 := BitVec.ofNat 32 t

/-- `get_ticks`, with the counter at `t₁` in the first read and at `t₂` in the second. -/
def getTicks (timerBase : U32) (t₁ t₂ : Nat) : U64 :=
  if timerBase = 0 then 0
  else (readHi t₁).setWidth 64 <<< 32 ||| (readLo t₂).setWidth 64

def getHz : U32 := TIMER_FREQ

/-- What call `k` of `get_ticks` returns. -/
def Counter.ticks (c : Counter) (timerBase : U32) (k : Nat) : U64 :=
  getTicks timerBase (c.value (2 * k)) (c.value (2 * k + 1))

def delayTicks (d : U32) : U64 := d.setWidth 64 * getHz.setWidth 64 / 1000000

/-- The loop of `udelay`, from call `k` of `get_ticks` on: the number of calls made when it
    ends, or `none` if it takes `fuel` calls or more. -/
def udelayLoop (c : Counter) (timerBase : U32) (val delay : U64) : Nat → Nat → Option Nat
  | 0, _ => none
  | fuel + 1, k =>
    if c.ticks timerBase k - val < delay then udelayLoop c timerBase val delay fuel (k + 1)
    else some (k + 1)

/-- `udelay`, where `k` calls of `get_ticks` were made before. -/
def udelay (c : Counter) (timerBase : U32) (d : U32) (fuel k : Nat) : Option Nat :=
  udelayLoop c timerBase (c.ticks timerBase k) (delayTicks d) fuel (k + 1)

/-! ### One call of `get_ticks` -/

section Call

variable {timerBase : U32} {t₁ t₂ : Nat}

theorem toNat_getTicks (hbase : timerBase ≠ 0) (hlt : t₁ < 2 ^ 64) :
    (getTicks timerBase t₁ t₂).toNat = t₁ / 2 ^ 32 * 2 ^ 32 + t₂ % 2 ^ 32 := by
  have hhi : t₁ / 2 ^ 32 < 2 ^ 32 := by omega
  have hlo : t₂ % 2 ^ 32 < 2 ^ 32 := Nat.mod_lt _ (by decide)
  have hshift : ((readHi t₁).setWidth 64 <<< 32 : U64).toNat = t₁ / 2 ^ 32 * 2 ^ 32 := by
    rw [BitVec.toNat_shiftLeft, BitVec.toNat_setWidth, readHi, BitVec.toNat_ofNat,
      Nat.mod_eq_of_lt hhi, Nat.shiftLeft_eq]
    omega
  have hword : ((readLo t₂).setWidth 64 : U64).toNat = t₂ % 2 ^ 32 := by
    rw [BitVec.toNat_setWidth, readLo, BitVec.toNat_ofNat]
    omega
  rw [getTicks, if_neg hbase, BitVec.toNat_or, hshift, hword, Nat.mul_comm,
    Nat.two_pow_add_eq_or_of_lt hlo]

/-- The value is one that the counter had between the two reads exactly if the high word did not
    change. -/
theorem snapshot_iff (hbase : timerBase ≠ 0) (hle : t₁ ≤ t₂) (hlt : t₂ < 2 ^ 64)
    (hnear : t₂ - t₁ < 2 ^ 32) :
    (t₁ ≤ (getTicks timerBase t₁ t₂).toNat ∧ (getTicks timerBase t₁ t₂).toNat ≤ t₂) ↔
      t₁ / 2 ^ 32 = t₂ / 2 ^ 32 := by
  rw [toNat_getTicks hbase (by omega)]
  omega

end Call

/-! ### Runs -/

/-- The high word is the same in both reads of every call. -/
def Counter.NoRollover (c : Counter) : Prop :=
  ∀ k, c.value (2 * k) / 2 ^ 32 = c.value (2 * k + 1) / 2 ^ 32

/-- What the callers rely on, over all calls: a value that the counter had during the call, that
    never decreases, and delays that are not cut short. -/
structure Counter.Consistent (c : Counter) (timerBase : U32) : Prop where
  snapshot : ∀ k, c.value (2 * k) ≤ (c.ticks timerBase k).toNat ∧
    (c.ticks timerBase k).toNat ≤ c.value (2 * k + 1)
  never_decreases : ∀ j k, j ≤ k → c.ticks timerBase j ≤ c.ticks timerBase k
  /-- From its first read to its last one `udelay` has let the delay pass. -/
  never_early : ∀ d fuel k m, udelay c timerBase d fuel k = some m →
    d.toNat * getHz.toNat / 1000000 ≤ c.value (2 * m - 1) - c.value (2 * k)

section Runs

variable {c : Counter} {timerBase : U32}

theorem Counter.snapshot (hbase : timerBase ≠ 0) (h : c.NoRollover) (k : Nat) :
    c.value (2 * k) ≤ (c.ticks timerBase k).toNat ∧
      (c.ticks timerBase k).toNat ≤ c.value (2 * k + 1) :=
  (snapshot_iff hbase (c.mono (Nat.le_succ _)) (c.lt _) (c.near k)).mpr (h k)

theorem Counter.ticks_le (hbase : timerBase ≠ 0) (h : c.NoRollover) {j k : Nat} (hjk : j ≤ k) :
    (c.ticks timerBase j).toNat ≤ (c.ticks timerBase k).toNat := by
  obtain rfl | hlt := Nat.eq_or_lt_of_le hjk
  · exact Nat.le_refl _
  · calc (c.ticks timerBase j).toNat ≤ c.value (2 * j + 1) := (c.snapshot hbase h j).2
      _ ≤ c.value (2 * k) := c.mono (by omega)
      _ ≤ (c.ticks timerBase k).toNat := (c.snapshot hbase h k).1

theorem toNat_delayTicks (d : U32) :
    (delayTicks d).toNat = d.toNat * getHz.toNat / 1000000 := by
  have hd := d.isLt
  have hhz : getHz.toNat = 24000000 := rfl
  have hprod : (d.setWidth 64 * getHz.setWidth 64 : U64).toNat = d.toNat * getHz.toNat := by
    rw [BitVec.toNat_mul, BitVec.toNat_setWidth, BitVec.toNat_setWidth, hhz]
    omega
  rw [delayTicks, BitVec.toNat_udiv, hprod]
  rfl

theorem udelayLoop_some {val delay : U64} : ∀ {fuel k m : Nat},
    udelayLoop c timerBase val delay fuel k = some m →
      k < m ∧ delay ≤ c.ticks timerBase (m - 1) - val := by
  intro fuel
  induction fuel with
  | zero =>
    intro k m h
    contradiction
  | succ fuel ih =>
    intro k m h
    rw [udelayLoop] at h
    split at h
    · obtain ⟨hlt, hdelay⟩ := ih h
      exact ⟨by omega, hdelay⟩
    · rename_i hdone
      cases h
      exact ⟨Nat.lt_succ_self k, BitVec.not_lt.mp hdone⟩

theorem udelay_never_early (hbase : timerBase ≠ 0) (h : c.NoRollover) {d : U32} {fuel k m : Nat}
    (hdelay : udelay c timerBase d fuel k = some m) :
    d.toNat * getHz.toNat / 1000000 ≤ c.value (2 * m - 1) - c.value (2 * k) := by
  obtain ⟨hlt, hle⟩ := udelayLoop_some hdelay
  have hmono := Counter.ticks_le hbase h (j := k) (k := m - 1) (by omega)
  have hfirst := (c.snapshot hbase h k).1
  have hlast := (c.snapshot hbase h (m - 1)).2
  have hread : 2 * (m - 1) + 1 = 2 * m - 1 := by omega
  rw [hread] at hlast
  -- the later value is not below the earlier one, so the difference does not wrap
  rw [BitVec.le_def, toNat_delayTicks, BitVec.toNat_sub_of_le hmono] at hle
  omega

/-- If no call has the low word roll over between its reads, `udelay` returns, at the latest after
    the first call of `get_ticks` that begins the whole delay after the first one ended. -/
theorem udelay_returns (hbase : timerBase ≠ 0) (h : c.NoRollover) {d : U32} {k n : Nat}
    (hkn : k < n)
    (hpassed : c.value (2 * k + 1) + d.toNat * getHz.toNat / 1000000 ≤ c.value (2 * n)) :
    ∃ m, udelay c timerBase d (n - k) k = some m ∧ m ≤ n + 1 := by
  have hdone : ¬ c.ticks timerBase n - c.ticks timerBase k < delayTicks d := by
    have hmono := Counter.ticks_le hbase h hkn.le
    have hfirst := (c.snapshot hbase h k).2
    have hlast := (c.snapshot hbase h n).1
    rw [BitVec.lt_def, toNat_delayTicks, BitVec.toNat_sub_of_le hmono]
    omega
  have hloop : ∀ fuel j, j + fuel = n + 1 → 0 < fuel →
      ∃ m, udelayLoop c timerBase (c.ticks timerBase k) (delayTicks d) fuel j = some m ∧
        m ≤ n + 1 := by
    intro fuel
    induction fuel with
    | zero =>
      intro j _ hpos
      contradiction
    | succ fuel ih =>
      intro j hj _
      rw [udelayLoop]
      split
      · rename_i hmore
        rcases Nat.eq_zero_or_pos fuel with rfl | hpos
        · obtain rfl : j = n := by omega
          exact absurd hmore hdone
        · exact ih (j + 1) (by omega) hpos
      · exact ⟨j + 1, rfl, by omega⟩
  exact hloop (n - k) (k + 1) (by omega) (by omega)

theorem udelay_returns_microsecond :
    ∃ m, udelay ⟨fun n => min (12 * n) 48, by intro a b hab; dsimp only; omega, by omega, by omega⟩
      0x38100000 1 2 0 = some m ∧ m ≤ 3 :=
  udelay_returns (by decide) (fun k => by dsimp only; omega) (by decide) (by decide)

/-- Once the timer is set up, `get_ticks` returns a value the counter had during the call, never
    less than an earlier call, and `udelay` never returns early: all of this exactly if in no call
    the low word rolls over between the two reads. -/
theorem get_ticks_consistent_iff (c : Counter) (hbase : timerBase ≠ 0) :
    c.Consistent timerBase ↔ c.NoRollover := by
  constructor
  · intro h k
    exact (snapshot_iff hbase (c.mono (Nat.le_succ _)) (c.lt _) (c.near k)).mp (h.snapshot k)
  · intro h
    exact ⟨c.snapshot hbase h, fun j k hjk => BitVec.le_def.mpr (Counter.ticks_le hbase h hjk),
      fun d fuel k m hdelay => udelay_never_early hbase h hdelay⟩

end Runs

/-- A counter that moves on by one between the two reads of the first call and then stands. -/
def stepAt (t : Nat) (ht : t < 2 ^ 64 - 1) : Counter where
  value n := if n = 0 then t else t + 1
  mono := by
    intro a b hab
    dsimp only
    split <;> split <;> omega
  lt := by
    intro n
    split <;> omega
  near := by
    intro k
    split <;> split <;> omega

theorem get_ticks_consistent_early : (stepAt 1000 (by decide)).Consistent 0x38100000 :=
  (get_ticks_consistent_iff _ (by decide)).mpr fun k => by
    dsimp only [stepAt]
    split <;> split <;> decide

/-- The low word rolls over between the reads of the first call: it returns 0, far below the
    counter, and a delay of one second ends after a single tick. -/
theorem get_ticks_torn :
    (stepAt 0xffffffff (by decide)).ticks 0x38100000 0 = 0 ∧
      udelay (stepAt 0xffffffff (by decide)) 0x38100000 1000000 1 0 = some 2 ∧
      (stepAt 0xffffffff (by decide)).value 3 - (stepAt 0xffffffff (by decide)).value 0 = 1 ∧
      ¬ (stepAt 0xffffffff (by decide)).Consistent 0x38100000 := by
  refine ⟨by decide, by decide, by decide, fun h => ?_⟩
  exact absurd (h.snapshot 0).1 (by decide)

end MiniHaywire.Timer

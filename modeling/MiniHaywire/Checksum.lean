import MiniHaywire.Bytes

/-!
# The link checksum, on both ends

`uartproxy.c` computes a 32-bit multiplicative checksum with unsigned
wrap-around, over one buffer or incrementally over several
(`checksum_start` / `checksum_add` / `checksum_finish`); `proxy.py` computes it
on unbounded Python integers and masks after every byte.  Frames are only
accepted because the two agree on every byte string, which is
`Host.checksum_eq`.

The multiplier is a unit modulo `2^32`, so a difference in the sum is never lost again
(`checksumBlock_init_inj`), and what two neighbouring bytes add to the sum tells what they are
(`checksumBlock_pair_inj`).
-/

namespace MiniHaywire

/-! ### The device side (`uartproxy.c`) -/

def CHECKSUM_INIT : U32 := 0xDEADBEEF
def CHECKSUM_FINAL : U32 := 0xADDEDBAD
def CHECKSUM_SENTINEL : U32 := 0xD0DECADE
def DATA_END_SENTINEL : U32 := 0xB0CACC10

/-- `checksum_block` over the bytes `d` that its `start` and `length` denote. -/
def checksumBlock (d : List Byte) (init : U32) : U32 :=
  d.foldl (fun sum b => sum * 31337 + (b ^^^ 0x5A).setWidth 32) init

def checksumStart (d : List Byte) : U32 := checksumBlock d CHECKSUM_INIT

def checksumAdd (d : List Byte) (sum : U32) : U32 := checksumBlock d sum

def checksumFinish (sum : U32) : U32 := sum ^^^ CHECKSUM_FINAL

def checksum (d : List Byte) : U32 := checksumFinish (checksumStart d)

/-- `data_checksum`, with the global `disable_data_csums` as an argument. -/
def dataChecksum (disableDataCsums : Bool) (d : List Byte) : U32 :=
  if disableDataCsums then CHECKSUM_SENTINEL else checksum d

theorem checksumBlock_append (d e : List Byte) (init : U32) :
    checksumBlock (d ++ e) init = checksumBlock e (checksumBlock d init) := by
  simp only [checksumBlock, List.foldl_append]

/-- The incremental computation of `uartproxy_send_event` is the checksum of the
    concatenation. -/
theorem checksumFinish_add_start (d e : List Byte) :
    checksumFinish (checksumAdd e (checksumStart d)) = checksum (d ++ e) := by
  rw [checksum, checksumStart, checksumStart, checksumAdd, checksumBlock_append]

theorem checksumBlock_flatten (parts : List (List Byte)) (sum : U32) :
    parts.foldl (fun sum d => checksumAdd d sum) sum = checksumBlock parts.flatten sum := by
  induction parts generalizing sum with
  | nil => rfl
  | cons d parts ih =>
    rw [List.foldl_cons, ih, List.flatten_cons, checksumBlock_append]
    rfl

/-! ### Errors that are detected -/

theorem checksumBlock_cons (b : Byte) (d : List Byte) (init : U32) :
    checksumBlock (b :: d) init = checksumBlock d (init * 31337 + (b ^^^ 0x5A).setWidth 32) :=
  rfl

theorem mul_multiplier_inj {x y : U32} (h : x * 31337 = y * 31337) : x = y := by
  have hunit : (31337 : U32) * 0xC72CB5D9 = 1 := by decide
  calc x = x * 31337 * 0xC72CB5D9 := by rw [mul_assoc, hunit, mul_one]
    _ = y * 31337 * 0xC72CB5D9 := by rw [h]
    _ = y := by rw [mul_assoc, hunit, mul_one]

theorem checksumBlock_init_inj (d : List Byte) :
    ∀ x y : U32, checksumBlock d x = checksumBlock d y → x = y := by
  induction d with
  | nil =>
    intro x y h
    exact h
  | cons b d ih =>
    intro x y h
    rw [checksumBlock_cons, checksumBlock_cons] at h
    exact mul_multiplier_inj (add_right_cancel (ih _ _ h))

theorem addend_inj {b c : Byte} (h : (b ^^^ 0x5A).toNat = (c ^^^ 0x5A).toNat) : b = c :=
  (BitVec.xor_left_inj 0x5A).mp (BitVec.eq_of_toNat_eq h)

theorem toNat_addend (b : Byte) : ((b ^^^ 0x5A).setWidth 32 : U32).toNat = (b ^^^ 0x5A).toNat := by
  rw [BitVec.toNat_setWidth]
  exact Nat.mod_eq_of_lt (lt_trans (b ^^^ 0x5A).isLt (by decide))

/-- Two bytes add less than `2^32` to the sum, and the first one in steps that the second one
    cannot make up for. -/
theorem checksumBlock_pair_inj {b₁ b₂ c₁ c₂ : Byte} {s : U32}
    (h : checksumBlock [b₁, b₂] s = checksumBlock [c₁, c₂] s) : b₁ = c₁ ∧ b₂ = c₂ := by
  have hsum : ∀ x y : Byte, checksumBlock [x, y] s =
      s * 31337 * 31337 +
        ((x ^^^ 0x5A).setWidth 32 * 31337 + (y ^^^ 0x5A).setWidth 32) := by
    intro x y
    rw [checksumBlock_cons, checksumBlock_cons]
    change (s * 31337 + _) * 31337 + _ = _
    ring
  have hnat : ∀ x y : Byte,
      ((x ^^^ 0x5A).setWidth 32 * 31337 + (y ^^^ 0x5A).setWidth 32 : U32).toNat =
      (x ^^^ 0x5A).toNat * 31337 + (y ^^^ 0x5A).toNat := by
    intro x y
    have hx := (x ^^^ 0x5A).isLt
    have hy := (y ^^^ 0x5A).isLt
    rw [BitVec.toNat_add, BitVec.toNat_mul, toNat_addend, toNat_addend]
    change ((x ^^^ 0x5A).toNat * 31337 % 2 ^ 32 + (y ^^^ 0x5A).toNat) % 2 ^ 32 = _
    omega
  rw [hsum, hsum] at h
  have hcancel := congrArg BitVec.toNat (add_left_cancel h)
  rw [hnat, hnat] at hcancel
  have hb := (b₂ ^^^ 0x5A).isLt
  have hc := (c₂ ^^^ 0x5A).isLt
  exact ⟨addend_inj (by omega), addend_inj (by omega)⟩

theorem checksumBlock_short_inj {x y : List Byte} {s : U32} (hlen : x.length = y.length)
    (hshort : x.length ≤ 2) (h : checksumBlock x s = checksumBlock y s) : x = y := by
  match x, y with
  | [], [] => rfl
  | [b], [c] =>
    -- a zero byte behind either of them
    have hpair : checksumBlock [b, 0] s = checksumBlock [c, 0] s := by
      rw [← List.singleton_append, checksumBlock_append, h, ← checksumBlock_append]
      rfl
    rw [(checksumBlock_pair_inj hpair).1]
  | [b₁, b₂], [c₁, c₂] =>
    obtain ⟨rfl, rfl⟩ := checksumBlock_pair_inj h
    rfl

/-- Two strings that agree outside of positions `i` and `i + 1`. -/
def DifferNear (i : Nat) (a b : List Byte) : Prop := ∀ j, a[j]? ≠ b[j]? → j = i ∨ j = i + 1

theorem eq_of_checksumBlock_eq {a b : List Byte} {i : Nat} {s : U32} (hlen : a.length = b.length)
    (hnear : DifferNear i a b) (h : checksumBlock a s = checksumBlock b s) : a = b := by
  have hpre : a.take i = b.take i := by
    apply List.ext_getElem?
    intro j
    rw [List.getElem?_take, List.getElem?_take]
    split
    · by_contra hne
      have := hnear j hne
      omega
    · rfl
  have hsuf : (a.drop i).drop 2 = (b.drop i).drop 2 := by
    apply List.ext_getElem?
    intro j
    rw [List.drop_drop, List.drop_drop, List.getElem?_drop, List.getElem?_drop]
    by_contra hne
    have := hnear _ hne
    omega
  have hsplit : ∀ d : List Byte, checksumBlock d s =
      checksumBlock ((d.drop i).drop 2)
        (checksumBlock ((d.drop i).take 2) (checksumBlock (d.take i) s)) := by
    intro d
    rw [← checksumBlock_append, ← checksumBlock_append, List.take_append_drop,
      List.take_append_drop]
  rw [hsplit a, hsplit b, hpre, hsuf] at h
  have hmid : (a.drop i).take 2 = (b.drop i).take 2 := by
    apply checksumBlock_short_inj _ _ (checksumBlock_init_inj _ _ _ h)
    · simp [hlen]
    · simp
  rw [← List.take_append_drop i a, ← List.take_append_drop 2 (a.drop i), hpre, hmid, hsuf,
    List.take_append_drop, List.take_append_drop]

/-! ### The host side (`UartInterface`) -/

namespace Host

/-- One round of the loop in `UartInterface.checksum`. -/
def checksumStep (sum : Nat) (c : Byte) : Nat :=
  (sum * 31337 + (c ^^^ 0x5a).toNat) &&& 0xFFFFFFFF

def checksum (data : List Byte) : Nat :=
  (data.foldl checksumStep 0xDEADBEEF ^^^ 0xADDEDBAD) &&& 0xFFFFFFFF

/-- `Feature.DISABLE_DATA_CSUMS`, the only feature bit. -/
def DISABLE_DATA_CSUMS : Nat := 0x01

/-- `self.enabled_features & Feature.DISABLE_DATA_CSUMS` as a condition. -/
def csumsDisabled (enabledFeatures : Nat) : Bool := enabledFeatures &&& DISABLE_DATA_CSUMS != 0

def dataChecksum (enabledFeatures : Nat) (data : List Byte) : Nat :=
  if csumsDisabled enabledFeatures then 0xD0DECADE else checksum data

theorem and_mask32 (n : Nat) : n &&& 0xFFFFFFFF = n % 2 ^ 32 :=
  Nat.and_two_pow_sub_one_eq_mod n 32

theorem checksumStep_toNat (sum : U32) (c : Byte) :
    checksumStep sum.toNat c = (sum * 31337 + (c ^^^ 0x5A).setWidth 32).toNat := by
  have hc : (c ^^^ 0x5A).toNat < 2 ^ 32 := lt_trans (c ^^^ 0x5A).isLt (by decide)
  rw [checksumStep, and_mask32, BitVec.toNat_add, BitVec.toNat_mul, BitVec.toNat_setWidth,
    Nat.mod_eq_of_lt hc]
  simp only [Nat.mod_add_mod]
  rfl

theorem foldl_checksumStep (data : List Byte) (sum : U32) :
    data.foldl checksumStep sum.toNat = (checksumBlock data sum).toNat := by
  induction data generalizing sum with
  | nil => rfl
  | cons c data ih =>
    simp only [List.foldl_cons, checksumBlock]
    rw [checksumStep_toNat, ih]
    rfl

/-- **Host and device compute the same checksum** on every byte string. -/
theorem checksum_eq (data : List Byte) :
    checksum data = (MiniHaywire.checksum data).toNat := by
  have hfold : data.foldl checksumStep 0xDEADBEEF = (checksumStart data).toNat :=
    foldl_checksumStep data CHECKSUM_INIT
  rw [checksum, hfold, and_mask32, MiniHaywire.checksum, checksumFinish, BitVec.toNat_xor]
  apply Nat.mod_eq_of_lt
  exact Nat.xor_lt_two_pow (checksumStart data).isLt (by decide)

theorem dataChecksum_eq (features : Nat) (data : List Byte) :
    dataChecksum features data =
      (MiniHaywire.dataChecksum (csumsDisabled features) data).toNat := by
  unfold dataChecksum MiniHaywire.dataChecksum
  split
  · rfl
  · exact checksum_eq data

end Host

/-- **The checksum of the link.**  Strings of one length that differ only in one byte or in two
    neighbouring bytes have different checksums, on any length and around any common bytes; both
    ends compute the same value, and adding part after part gives that of the whole. -/
theorem checksum_detects :
    (∀ (a b : List Byte) (i : Nat), a.length = b.length → a ≠ b → DifferNear i a b →
      checksum a ≠ checksum b) ∧
    (∀ data, Host.checksum data = (checksum data).toNat) ∧
    ∀ (first : List Byte) (parts : List (List Byte)),
      checksumFinish (parts.foldl (fun sum d => checksumAdd d sum) (checksumStart first)) =
        checksum (first ++ parts.flatten) := by
  refine ⟨?_, Host.checksum_eq, ?_⟩
  · intro a b i hlen hne hnear h
    apply hne
    apply eq_of_checksumBlock_eq hlen hnear
    exact (BitVec.xor_left_inj CHECKSUM_FINAL).mp h
  · intro first parts
    rw [checksumBlock_flatten, checksum, checksumStart, checksumStart, checksumBlock_append]

theorem checksum_detects_swap : checksum [0x61, 0x62, 0x0a] ≠ checksum [0x62, 0x61, 0x0a] := by
  refine checksum_detects.1 _ _ 0 rfl (by decide) ?_
  intro j hj
  match j with
  | 0 => exact .inl rfl
  | 1 => exact .inr rfl
  | j + 2 => exact absurd rfl hj

end MiniHaywire
